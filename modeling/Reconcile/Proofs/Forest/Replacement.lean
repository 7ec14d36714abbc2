import Reconcile.Proofs.Forest.Wrapping

namespace Reconcile

/-- A list with `new` in the place of `old`, and nowhere else. -/
def exchanged (old new : Handle) (hs : List Handle) : List Handle :=
  (hs.filter (· != new)).map fun c => if c = old then new else c

/-- The list that `old` has left between `before` and `after`, without `new` as well, and then `new`
put in front of what is at the index that `old` had. -/
def reinserted (new : Handle) (before after : List Handle) : List Handle :=
  let rest := (before ++ after).filter (· != new)
  rest.take before.length ++ new :: rest.drop before.length

section Lists

variable {old new : Handle} {before after : List Handle}

theorem exchanged_middle (hb : old ∉ before) (ha : old ∉ after) (hne : new ≠ old) :
    exchanged old new (before ++ old :: after) =
      before.filter (· != new) ++ new :: after.filter (· != new) := by
  have keep {hs : List Handle} (h : old ∉ hs) :
      (hs.filter (· != new)).map (fun c => if c = old then new else c) = hs.filter (· != new) := by
    refine (List.map_congr_left fun c hc => ?_).trans (List.map_id _)
    exact if_neg (ne_of_mem_of_not_mem (List.mem_filter.mp hc).1 h)
  rw [exchanged, List.filter_append, List.filter_cons_of_pos (by simpa using hne.symm),
    List.map_append, List.map_cons, keep hb, keep ha, if_pos rfl]

theorem reinserted_of_not_mem (hb : new ∉ before) :
    reinserted new before after = before ++ new :: after.filter (· != new) := by
  rw [reinserted, List.filter_append, Forest.filter_ne_eq_self hb, List.take_left, List.drop_left]

theorem reinserted_of_mem (hd : (before ++ after).Nodup) (hb : new ∈ before) :
    reinserted new before after =
      before.filter (· != new) ++ after.take 1 ++ new :: after.drop 1 := by
  obtain ⟨hdb, -, hdis⟩ := List.nodup_append'.mp hd
  have hlen : before.length = (before.filter (· != new)).length + 1 := by
    rw [← hdb.erase_eq_filter, List.length_erase_of_mem hb]
    have := List.length_pos_of_mem hb
    omega
  rw [reinserted, List.filter_append, Forest.filter_ne_eq_self (hdis hb), hlen,
    List.take_length_add_append, List.drop_length_add_append]

/-- A node gets the place of another one unless it leaves a place in front of it, and unless that
makes no difference because nothing follows. -/
theorem reinserted_eq_exchanged_iff (hd : (before ++ old :: after).Nodup) (hne : new ≠ old) :
    reinserted new before after = exchanged old new (before ++ old :: after) ↔
      (new ∈ before → after = []) := by
  obtain ⟨⟨hb, ha⟩, hd'⟩ : (old ∉ before ∧ old ∉ after) ∧ (before ++ after).Nodup := by
    simpa [List.nodup_middle] using hd
  rw [exchanged_middle hb ha hne]
  by_cases hnew : new ∈ before
  · have hafter : new ∉ after := (List.nodup_append'.mp hd').2.2 hnew
    rw [reinserted_of_mem hd' hnew, Forest.filter_ne_eq_self hafter, List.append_assoc,
      List.append_cancel_left_eq]
    cases after with
    | nil => simp
    | cons next rest => simpa [hnew] using fun he : next = new => absurd (he ▸ List.mem_cons_self) hafter
  · rw [reinserted_of_not_mem hnew, Forest.filter_ne_eq_self hnew]
    exact ⟨fun _ h => absurd h hnew, fun _ => rfl⟩

end Lists

namespace Forest

/-- A node that can be moved: neither the root nor a side of a conflict. -/
structure Movable (f : Forest) (c : Handle) : Prop where
  known : c < f.size
  ne_root : c ≠ root
  not_side : ∀ h < f.size, ∀ n ∈ f.look h, c ∉ n.kind.sides

instance (f : Forest) (c : Handle) : Decidable (f.Movable c) :=
  decidable_of_iff (c < f.size ∧ c ≠ root ∧ ∀ h < f.size, ∀ n ∈ f.look h, c ∉ n.kind.sides)
    ⟨fun ⟨a, b, c⟩ => ⟨a, b, c⟩, fun ⟨a, b, c⟩ => ⟨a, b, c⟩⟩

variable {f : Forest} {ρ : Handle → Nat} {c p old new : Handle} {n m : Node} {before after : List Handle}

theorem WellFormed.loose (hf : f.WellFormed) (hc : f.Movable c) : Loose f.look c := by
  refine ⟨hc.ne_root, ⟨_, Array.getElem?_eq_getElem hc.known⟩, ?_⟩
  intro p hp
  obtain ⟨m, hm, hparent⟩ := Option.bind_eq_some_iff.mp hp
  obtain ⟨n, hn, hbelow⟩ := hf.ranked.exists_parent hm hparent
  have hchild : c ∈ n.children :=
    (List.mem_append.mp hbelow).resolve_right (hc.not_side p (look_lt hn) n hn)
  exact ⟨n, hn, hf.ranked.container_of_mem hn hchild⟩

theorem position_middle (hc : f.look c = some m) (hm : m.parent = some p) (hp : f.look p = some n)
    (hcs : n.children = before ++ c :: after) (hb : c ∉ before) :
    f.position c = .ok (some before.length) := by
  simp only [position, get_of_look hc, bind, Except.bind, hm, children_of_look hp, hcs,
    idxOf?_middle hb]
  rfl

theorem replace_look (hf : Ranked f.look ρ) (hp : f.look p = some n)
    (hcs : n.children = before ++ old :: after) (hnew : Loose f.look new) (hlt : ρ p < ρ new) :
    ∃ f', f.replace old new = .ok f' ∧ Ranked f'.look ρ ∧ f'.size = f.size ∧
      ∀ h m, f.look h = some m → f'.look h = some { m with
        parent := if h = new then some p else if h = old then none else m.parent
        children :=
          let others := (m.children.filter (· != old)).filter (· != new)
          if h = p then others.take before.length ++ new :: others.drop before.length else others } := by
  have hold : old ∈ n.children := by simp [hcs]
  have hroom := hf.container_of_mem hp hold
  have hloose := hf.loose_of_child hp hroom hold
  obtain ⟨m, hm⟩ := hloose.known
  have hparent := (hf.child_iff hp hroom hm).mp hold
  have hbefore := (hf.not_mem_siblings ⟨hm, hparent, hp, hroom, hcs⟩).1
  obtain ⟨f₁, he₁, h₁, hl₁⟩ := detach_look hf hloose
  have hk₁ := h₁.keeps (by simp)
  obtain ⟨f₂, he₂, h₂, hl₂⟩ := insert_look h₁.ranked (hk₁.room ⟨n, hp, hroom⟩) (hk₁.loose new hnew)
    hlt before.length
  refine ⟨f₂, ?_, h₂.ranked, h₂.size.trans h₁.size, fun h k hk => hl₂ h _ (hl₁ h k hk)⟩
  simp only [replace, get_of_look hm, bind, Except.bind, hparent,
    position_middle hm hparent hp hcs hbefore, he₁]
  exact he₂

/-- One node takes the place of another one in a container, and leaves the place where it was. It
gets exactly that place unless it was listed in front of the other one by the same container, and
something follows. No other node is changed. -/
theorem replaces_in_place_iff (hf : f.WellFormed) (hp : f.look p = some n)
    (hcs : n.children = before ++ old :: after) (hnew : f.Movable new) (hne : new ≠ old)
    (hup : new ∉ f.lineage p) :
    ∃ f', f.replace old new = .ok f' ∧ f'.size = f.size ∧
      (∀ h m, f.look h = some m → f'.look h = some { m with
        parent := if h = old then none else if h = new then some p else m.parent
        children :=
          if h = p then reinserted new before after
          else if f.parent new = .ok (some h) then m.children.filter (· != new)
          else m.children }) ∧
      (f'.children p = .ok (exchanged old new n.children) ↔ (new ∈ before → after = [])) := by
  obtain ⟨ρ, hρ, hlt⟩ := hf.exists_rank hup
  obtain ⟨f', he, -, hs, hl⟩ := replace_look hρ hp hcs (hf.loose hnew) hlt
  obtain ⟨w, hw⟩ := (hf.loose hnew).known
  have hd := hρ.nodup_children hp
  rw [hcs] at hd
  have hb : old ∉ before ∧ old ∉ after := by
    rw [List.nodup_middle] at hd
    simpa using (List.nodup_cons.mp hd).1
  have hold : parentIn f.look old = some p := by
    rw [hρ.links, belowIn_of_look hp, Node.below, hcs]
    simp
  have hlook : ∀ h m, f.look h = some m → f'.look h = some { m with
      parent := if h = old then none else if h = new then some p else m.parent
      children :=
        if h = p then reinserted new before after
        else if f.parent new = .ok (some h) then m.children.filter (· != new)
        else m.children } := by
    intro h m hm
    rw [hl h m hm, Option.some.injEq, Node.mk.injEq]
    refine ⟨rfl, rfl, by split_ifs <;> simp_all, ?_⟩
    by_cases hh : h = p
    · subst hh
      cases hm.symm.trans hp
      simp only [if_pos, hcs, filter_middle hb.1 hb.2, reinserted]
    · have hother : parentIn f.look old ≠ some h := by simpa [hold] using Ne.symm hh
      simp only [if_neg hh, hρ.filter_children hm hother]
      split
      · rfl
      · next hnone =>
          refine hρ.filter_children hm fun he => hnone ?_
          rw [parent_of_look hw, ← parentIn_of_look hw, he]
  refine ⟨f', he, hs, hlook, ?_⟩
  rw [hcs, ← reinserted_eq_exchanged_iff hd hne, children_of_look (hlook p n hp), if_pos rfl,
    Except.ok.injEq]

def fourConstants : Forest :=
  let node (name : String) : Node :=
    { kind := .plain (.leaf (.constant name "1")), parent := some root }
  ⟨#[{ kind := .plain .tree, children := [1, 2, 3, 4] }, node "A", node "B", node "C", node "D"]⟩

theorem replaces_in_place_iff_fourConstants :
    fourConstants.WellFormed ∧ fourConstants.Movable 4 ∧ 4 ∉ fourConstants.lineage root ∧
      ∃ f', fourConstants.replace 2 4 = .ok f' ∧ f'.children root = .ok [1, 4, 3] := by
  have hf : fourConstants.WellFormed := by decide
  have hm : fourConstants.Movable 4 := by decide
  have hup : 4 ∉ fourConstants.lineage root := by decide
  obtain ⟨n, hn⟩ : ∃ n, fourConstants.look root = some n := ⟨_, rfl⟩
  have hcs : n.children = [1] ++ 2 :: [3, 4] := by
    cases hn
    rfl
  obtain ⟨f', he, -, -, hiff⟩ := replaces_in_place_iff hf hn hcs hm (by decide) hup
  rw [hcs] at hiff
  exact ⟨hf, hm, hup, f', he, hiff.mpr (by decide)⟩

/-- The first constant is put behind the fourth one when it takes the place of the third one. -/
theorem replaced_behind_next :
    fourConstants.WellFormed ∧ fourConstants.Movable 1 ∧ 1 ∉ fourConstants.lineage root ∧
      (∃ f', fourConstants.replace 3 1 = .ok f' ∧ f'.children root = .ok [2, 4, 1]) ∧
      exchanged 3 1 [1, 2, 3, 4] = [2, 1, 4] := by
  exact ⟨by decide, by decide, by decide, ⟨_, rfl, rfl⟩, rfl⟩

end Forest

end Reconcile
