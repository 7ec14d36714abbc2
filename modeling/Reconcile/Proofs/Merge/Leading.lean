import Reconcile.Proofs.Forest.Choosing
import Reconcile.Proofs.Merge.Mirror

namespace Reconcile

def Labels.on (side : Side) (labels : Labels) : String := side.pick labels.left labels.right

namespace Outline

def isDispute : Outline → Bool
  | conflict _ .declarations .. => true
  | _ => false

def side (side : Side) : Outline → Outline
  | conflict _ _ _ _ l r => side.pick l r
  | o => o

def label (side : Side) : Outline → String
  | conflict _ _ labels _ _ _ => labels.on side
  | _ => ""

def isDeclaration (o : Outline) : Bool := o.content?.any Content.isDeclaration

/-- Among the children of a node, `x` is in the run of conflicts of declarations that starts with `head`. -/
def Leads (o head x : Outline) : Prop :=
  ∃ before rest, o.children = before ++ head :: rest ∧ head.isDispute = true ∧
    x ∈ head :: rest.takeWhile isDispute ∧ ∀ y ∈ before.getLast?, y.isDispute = false

/-- An outline in which the runs are folded all the way down. -/
def coalesced (o : Outline) : Outline := o.coalescedWithin o.handles.length

variable {o x y z : Outline} {xs ys : List Outline} {s : Side}

theorem exists_leads (hx : x ∈ xs) (hd : x.isDispute = true) :
    ∃ before head rest, xs = before ++ head :: rest ∧ head.isDispute = true ∧
      x ∈ head :: rest.takeWhile isDispute ∧ ∀ y ∈ before.getLast?, y.isDispute = false := by
  induction xs with
  | nil => cases hx
  | cons y ys ih =>
      rcases List.mem_cons.mp hx with rfl | hx
      · exact ⟨[], x, ys, rfl, hd, List.mem_cons_self, nofun⟩
      · obtain ⟨before, head, rest, rfl, hh, hm, hlast⟩ := ih hx
        cases before with
        | cons b bs => exact ⟨y :: b :: bs, head, rest, rfl, hh, hm, by simpa using hlast⟩
        | nil =>
            cases hy : y.isDispute with
            | false => exact ⟨[y], head, rest, rfl, hh, hm, by simpa using hy⟩
            | true =>
                refine ⟨[], y, head :: rest, rfl, hy, ?_, nofun⟩
                rw [List.takeWhile_cons_of_pos hh]
                exact List.mem_cons_of_mem _ hm

theorem unite?_eq_none (h : x.isDispute = false ∨ y.isDispute = false) : x.unite? y = none := by
  cases x with
  | node => rfl
  | conflict _ form =>
      cases y with
      | node => cases form <;> rfl
      | conflict _ form' => cases form <;> cases form' <;> simp [isDispute] at h <;> rfl

theorem exists_unite (hx : x.isDispute = true) (hy : y.isDispute = true) : ∃ z, x.unite? y = some z := by
  unfold isDispute at hx hy
  split at hx
  · split at hy
    · exact ⟨_, rfl⟩
    · cases hy
  · cases hx

namespace Unites

variable (h : Unites x y z)

include h

theorem isDispute : x.isDispute = true ∧ y.isDispute = true ∧ z.isDispute = true := by
  cases h
  exact ⟨rfl, rfl, rfl⟩

theorem label (s : Side) : z.label s = x.label s := by
  cases h
  rfl

theorem children (s : Side) : (z.side s).children = (x.side s).children ++ (y.side s).children := by
  cases h
  cases s <;> rfl

theorem subtrees_of_scope {q : Handle} {sc : Scope} {n : Notes} {cs : List Outline}
    (hm : node q (.scope sc) n cs ∈ x.subtrees ∨ node q (.scope sc) n cs ∈ y.subtrees) :
    node q (.scope sc) n cs ∈ z.subtrees := by
  cases h
  simp only [subtrees_conflict, subtrees_node, List.flatMap_append, List.mem_cons, List.mem_append,
    reduceCtorEq, node.injEq, false_and, and_false, false_or] at hm ⊢
  tauto

end Unites

theorem exists_foldRuns (hx : x.sound = true) (hs : ∀ y ∈ ys, y.sound = true) (hd : x.isDispute = true) :
    ∃ z ∈ foldRuns x ys, z.isDispute = true ∧ (∀ s, z.label s = x.label s) ∧
      ∀ y ∈ x :: ys.takeWhile isDispute, ∀ s, (y.side s).children ⊆ (z.side s).children := by
  induction ys generalizing x with
  | nil => exact ⟨x, List.mem_singleton_self x, hd, fun _ => rfl, by simp⟩
  | cons y ys ih =>
      cases hy : y.isDispute with
      | false =>
          refine ⟨x, ?_, hd, fun _ => rfl, by simp [hy]⟩
          rw [foldRuns, unite?_eq_none (Or.inr hy)]
          exact List.mem_cons_self
      | true =>
          obtain ⟨w, hw⟩ := exists_unite hd hy
          have hsy := hs y List.mem_cons_self
          have hu := unites_of_sound hx hsy hw
          obtain ⟨z, hz, hdz, hlabel, hsides⟩ := ih (hu.sound hx hsy)
            (fun y hy => hs y (List.mem_cons_of_mem _ hy)) hu.isDispute.2.2
          refine ⟨z, ?_, hdz, fun s => (hlabel s).trans (hu.label s), fun v hv s => ?_⟩
          · rw [foldRuns, hw]
            exact hz
          · have hwz := hsides w List.mem_cons_self s
            rw [hu.children] at hwz
            rw [List.takeWhile_cons_of_pos hy, List.mem_cons, List.mem_cons] at hv
            rcases hv with rfl | rfl | hv
            · exact fun m hm => hwz (List.mem_append_left _ hm)
            · exact fun m hm => hwz (List.mem_append_right _ hm)
            · exact hsides v (List.mem_cons_of_mem _ hv) s

theorem foldRuns_append (hx : ∀ w ∈ (x :: xs).getLast?, w.isDispute = false) :
    foldRuns x (xs ++ y :: ys) = foldRuns x xs ++ foldRuns y ys := by
  induction xs generalizing x with
  | nil =>
      have hnone : x.unite? y = none := unite?_eq_none (Or.inl (hx x rfl))
      simp only [List.nil_append, foldRuns, hnone, List.singleton_append]
  | cons w ws ih =>
      rw [List.cons_append, foldRuns, foldRuns]
      cases hu : x.unite? w with
      | none =>
          refine congrArg (x :: ·) (ih fun v hv => hx v ?_)
          rwa [List.getLast?_cons_cons]
      | some z =>
          refine ih fun v hv => hx v ?_
          cases ws with
          | cons => exact hv
          | nil =>
              -- Only conflicts of declarations unite, so the last one would be one.
              have hw : w.isDispute = false := hx w rfl
              rw [unite?_eq_none (Or.inr hw)] at hu
              cases hu

/-- In the folded list the head of a run stands for all of the run. -/
theorem exists_runs_of_leads (hs : ∀ y ∈ o.children, y.sound = true) (hl : o.Leads x y) :
    ∃ z ∈ runs o.children, z.isDispute = true ∧ (∀ s, z.label s = x.label s) ∧
      ∀ s, (y.side s).children ⊆ (z.side s).children := by
  obtain ⟨before, rest, heq, hx, hy, hlast⟩ := hl
  rw [heq] at hs ⊢
  obtain ⟨z, hz, hd, hlabel, hsides⟩ := @exists_foldRuns x rest (hs x (by simp))
    (fun y hy => hs y (by simp [hy])) hx
  refine ⟨z, ?_, hd, hlabel, hsides y hy⟩
  cases before with
  | nil => exact hz
  | cons b bs =>
      rw [List.cons_append, runs, foldRuns_append hlast]
      exact List.mem_append_right _ hz

theorem mem_runs (hs : ∀ y ∈ xs, y.sound = true) (hx : x ∈ xs) (hd : x.isDispute = false) :
    x ∈ runs xs := by
  refine (runs_keep hs hx (M := fun zs => x ∈ zs) ?_).1
  intro before after a b c hu hm
  simp only [List.mem_append, List.mem_cons] at hm ⊢
  obtain ⟨ha, hb, -⟩ := hu.isDispute
  rcases hm with hm | rfl | rfl | hm
  · exact Or.inl hm
  · rw [hd] at ha
    cases ha
  · rw [hd] at hb
    cases hb
  · exact Or.inr (Or.inr hm)

theorem length_of_mem_runs (hs : ∀ y ∈ xs, y.sound = true) (hx : x ∈ runs xs) :
    x.handles.length ≤ (xs.flatMap handles).length :=
  Nat.le_trans (length_handles_le hx) (length_runs hs)

theorem descend_congr {g g' : Outline → Outline} (hs : x.sound = true)
    (h : ∀ y, y.sound = true → y.handles.length ≤ x.handles.length → g y = g' y) :
    x.descend g = x.descend g' := by
  cases x with
  | node k c n cs =>
      rw [descend, descend]
      split
      · exact h _ hs (Nat.le_refl _)
      · rfl
  | conflict k form labels n l r =>
      obtain ⟨-, hl, hr⟩ := (sound_conflict ..).mp hs
      rw [handles_conflict, List.length_cons, List.length_append] at h
      rw [descend, descend, h l hl (by omega), h r hr (by omega)]

/-- The depth makes no difference once it is enough. -/
theorem coalescedWithin_eq {d e : Nat} (hs : o.sound = true) (hd : o.handles.length ≤ d)
    (he : o.handles.length ≤ e) : o.coalescedWithin d = o.coalescedWithin e := by
  induction d generalizing o e with
  | zero => simp [handles] at hd
  | succ d ih =>
      cases o with
      | conflict => cases e <;> rfl
      | node k c n cs =>
          cases e with
          | zero => simp [handles] at he
          | succ e =>
              rw [handles_node, List.length_cons, Nat.succ_le_succ_iff] at hd he
              rw [sound_node] at hs
              rw [coalescedWithin, coalescedWithin]
              congr 1
              refine List.map_congr_left fun w hw => ?_
              have hle := length_of_mem_runs hs.2 hw
              exact descend_congr (sound_runs hs.2 w hw) fun y hy hyw => ih hy (by omega) (by omega)

theorem mem_coalescedWithin {d : Nat} {k : Handle} {c : Content} {n : Notes} {cs : List Outline}
    (hs : (node k c n cs).sound = true) (hd : (node k c n cs).handles.length ≤ d) (hx : x ∈ cs)
    (hdecl : x.isDeclaration = true) : x.coalesced ∈ ((node k c n cs).coalescedWithin d).children := by
  cases d with
  | zero => simp [handles] at hd
  | succ d =>
      have hcs := ((sound_node ..).mp hs).2
      have hsx := hcs x hx
      rw [handles_node, List.length_cons, Nat.succ_le_succ_iff] at hd
      have hle := Nat.le_trans (length_handles_le hx) hd
      cases x with
      | conflict => cases hdecl
      | node h c' n' ds =>
          have hmem := mem_runs hcs hx rfl
          have hfold : (node h c' n' ds).coalesced = (node h c' n' ds).descend (coalescedWithin d) := by
            rw [descend]
            split
            · exact coalescedWithin_eq hsx (Nat.le_refl _) hle
            · next hc =>
                rcases ((sound_node ..).mp hsx).1 with hc' | rfl
                · exact absurd hc' hc
                · rfl
          rw [coalescedWithin, hfold]
          exact List.mem_map_of_mem hmem

theorem subtrees_descend {g : Outline → Outline} {q : Handle} {sc : Scope} {n : Notes}
    {cs : List Outline} (hs : x.sound = true) (hm : node q (.scope sc) n cs ∈ x.subtrees)
    (hg : ∀ y, y.sound = true → y.content?.isSome = true → y.handles.length ≤ x.handles.length →
      node q (.scope sc) n cs ∈ y.subtrees → z ∈ (g y).subtrees) : z ∈ (x.descend g).subtrees := by
  cases x with
  | node k c m ds =>
      rw [descend]
      split
      · exact hg _ hs rfl (Nat.le_refl _) hm
      · next hc =>
          rcases ((sound_node ..).mp hs).1 with hroom | rfl
          · exact absurd hroom hc
          · cases List.mem_singleton.mp hm
            exact absurd rfl hc
  | conflict k form labels m l r =>
      obtain ⟨⟨hl, hr⟩, hsl, hsr⟩ := (sound_conflict ..).mp hs
      rw [handles_conflict, List.length_cons, List.length_append] at hg
      rw [subtrees_conflict, List.mem_cons, List.mem_append] at hm
      rw [descend, subtrees_conflict]
      rcases hm with heq | hm | hm
      · cases heq
      · obtain ⟨a, ca, na, as, rfl, -⟩ := container_of_suits hl
        exact List.mem_cons_of_mem _ (List.mem_append_left _ (hg _ hsl rfl (by omega) hm))
      · obtain ⟨a, ca, na, as, rfl, -⟩ := container_of_suits hr
        exact List.mem_cons_of_mem _ (List.mem_append_right _ (hg _ hsr rfl (by omega) hm))

theorem coalescedWithin_scope {d : Nat} {q : Handle} {sc : Scope} {n : Notes} {cs : List Outline}
    (hs : o.sound = true) (hc : o.content?.isSome = true) (hd : o.handles.length ≤ d)
    (hm : node q (.scope sc) n cs ∈ o.subtrees) :
    (node q (.scope sc) n cs).coalesced ∈ (o.coalescedWithin d).subtrees := by
  induction d generalizing o with
  | zero => simp [handles] at hd
  | succ d ih =>
      cases o with
      | conflict => cases hc
      | node h c m ds =>
          rw [subtrees_node, List.mem_cons, List.mem_flatMap] at hm
          rcases hm with heq | ⟨y, hy, hm⟩
          · rw [← heq] at hs hd ⊢
            rw [coalesced, coalescedWithin_eq hs (Nat.le_refl _) hd]
            exact mem_subtrees_self _
          · have hds := ((sound_node ..).mp hs).2
            rw [handles_node, List.length_cons, Nat.succ_le_succ_iff] at hd
            -- Uniting two conflicts leaves the scopes in them alone.
            obtain ⟨w, hw, hmw⟩ := (runs_keep hds ⟨y, hy, hm⟩
              (M := fun zs => ∃ w ∈ zs, node q (.scope sc) n cs ∈ w.subtrees) (by
                rintro before after a b z hu ⟨w, hw, hmw⟩
                simp only [List.mem_append, List.mem_cons] at hw
                rcases hw with hw | rfl | rfl | hw
                · exact ⟨w, by simp [hw], hmw⟩
                · exact ⟨z, by simp, hu.subtrees_of_scope (Or.inl hmw)⟩
                · exact ⟨z, by simp, hu.subtrees_of_scope (Or.inr hmw)⟩
                · exact ⟨w, by simp [hw], hmw⟩)).1
            have hle := Nat.le_trans (length_of_mem_runs hds hw) hd
            rw [coalescedWithin, subtrees_node]
            refine List.mem_cons_of_mem _ (List.mem_flatMap.mpr ⟨_, List.mem_map_of_mem hw, ?_⟩)
            exact subtrees_descend (sound_runs hds w hw) hmw fun y hsy hcy hly =>
              ih hsy hcy (Nat.le_trans hly hle)

end Outline

end Reconcile
