import Reconcile.Proofs.Forest.Holds

namespace Reconcile

namespace Kind

def sides : Kind → List Handle
  | plain _ => []
  | conflict _ _ left right => [left, right]

def canBeSideOf (kind k : Kind) : Bool :=
  match kind, k with
  | plain c, conflict form .. => form.accepts c
  | _, _ => false

end Kind

namespace Forest

/-- How the node `n` with handle `h` is linked to its neighbours. -/
structure Linked (f : Forest) (h : Handle) (n : Node) : Prop where
  container : n.kind.isContainer = true ∨ n.children = []
  nodup : n.children.Nodup
  children : ∀ c ∈ n.children, ∃ m ∈ f.look c, m.parent = some h
  parent : ∀ p ∈ n.parent, ∃ m ∈ f.look p, h ∈ m.children ∨ h ∈ m.kind.sides
  distinct : n.kind.sides.Nodup
  sides : ∀ s ∈ n.kind.sides, ∃ m ∈ f.look s, m.parent = some h ∧ m.kind.canBeSideOf n.kind = true

structure WellFormed (f : Forest) : Prop where
  root : ∃ n ∈ f.look root, n.kind = .plain .tree ∧ n.parent = none
  linked : ∀ h < f.size, ∀ n ∈ f.look h, f.Linked h n
  chain : ∀ h < f.size, (f.ancestors h).isOk = true

instance (f : Forest) (h : Handle) (n : Node) : Decidable (f.Linked h n) :=
  decidable_of_iff ((n.kind.isContainer = true ∨ n.children = []) ∧ n.children.Nodup ∧
    (∀ c ∈ n.children, ∃ m ∈ f.look c, m.parent = some h) ∧
    (∀ p ∈ n.parent, ∃ m ∈ f.look p, h ∈ m.children ∨ h ∈ m.kind.sides) ∧ n.kind.sides.Nodup ∧
    ∀ s ∈ n.kind.sides, ∃ m ∈ f.look s, m.parent = some h ∧ m.kind.canBeSideOf n.kind = true)
    ⟨fun ⟨a, b, c, d, e, g⟩ => ⟨a, b, c, d, e, g⟩, fun ⟨a, b, c, d, e, g⟩ => ⟨a, b, c, d, e, g⟩⟩

instance (f : Forest) : Decidable f.WellFormed :=
  decidable_of_iff ((∃ n ∈ f.look root, n.kind = .plain .tree ∧ n.parent = none) ∧
    (∀ h < f.size, ∀ n ∈ f.look h, f.Linked h n) ∧ ∀ h < f.size, (f.ancestors h).isOk = true)
    ⟨fun ⟨a, b, c⟩ => ⟨a, b, c⟩, fun ⟨a, b, c⟩ => ⟨a, b, c⟩⟩

/-- No conflict can be reached from the root. -/
def ConflictFree (f : Forest) : Prop := ∃ o, f.outline root = .ok o ∧ o.conflictFree = true

variable {f : Forest} {h p : Handle} {n : Node} {l : List Handle}

theorem ancestorsWithin_mono {length length' : Nat} (hl : f.ancestorsWithin length h = .ok l)
    (hle : length ≤ length') : f.ancestorsWithin length' h = .ok l := by
  induction length generalizing length' h l with
  | zero => cases hl
  | succ length ih =>
      obtain ⟨length', rfl⟩ : ∃ k, length' = k + 1 := ⟨length' - 1, by omega⟩
      simp only [ancestorsWithin, bind, Except.bind] at hl ⊢
      cases hn : f.get h with
      | error e => simp [hn] at hl
      | ok n =>
          simp only [hn] at hl ⊢
          cases hp : n.parent with
          | none => simpa [hp] using hl
          | some p =>
              simp only [hp] at hl ⊢
              cases hup : f.ancestorsWithin length p with
              | error e => simp [hup] at hl
              | ok up =>
                  rw [ih hup (by omega)]
                  simpa [hup] using hl

theorem length_ancestorsWithin {length : Nat} (hl : f.ancestorsWithin length h = .ok l) :
    l.length < length := by
  induction length generalizing h l with
  | zero => cases hl
  | succ length ih =>
      simp only [ancestorsWithin, bind, Except.bind] at hl
      cases hn : f.get h with
      | error e => simp [hn] at hl
      | ok n =>
          simp only [hn] at hl
          cases hp : n.parent with
          | none =>
              simp only [hp, pure, Except.pure, Except.ok.injEq] at hl
              subst hl
              simp
          | some p =>
              simp only [hp] at hl
              cases hup : f.ancestorsWithin length p with
              | error e => simp [hup] at hl
              | ok up =>
                  simp only [hup, pure, Except.pure, Except.ok.injEq] at hl
                  subst hl
                  have := ih hup
                  simp only [List.length_cons]
                  omega

theorem ancestors_cons (hl : f.ancestors h = .ok l) (hn : f.look h = some n)
    (hp : n.parent = some p) : ∃ up, l = p :: up ∧ f.ancestors p = .ok up := by
  rw [ancestors] at hl
  cases hs : f.size with
  | zero => rw [hs] at hl; cases hl
  | succ length =>
      simp only [hs, ancestorsWithin, get_of_look hn, bind, Except.bind, hp] at hl
      cases hup : f.ancestorsWithin length p with
      | error e => simp [hup] at hl
      | ok up =>
          simp only [hup, pure, Except.pure, Except.ok.injEq] at hl
          exact ⟨up, hl.symm, ancestorsWithin_mono hup (by omega)⟩

/-- `o` is what the forest holds at `h`, and each of its nodes has `h` and its chain `l` above it. -/
structure Unfolds (f : Forest) (parent : Option Handle) (h : Handle) (l : List Handle)
    (o : Outline) : Prop where
  handle : o.handle = h
  holds : o.Holds f.look parent
  sound : o.sound = true
  nodup : o.handles.Nodup
  below : ∀ x ∈ o.handles, ∃ up, f.ancestors x = .ok up ∧ (h :: l).IsSuffix (x :: up)

theorem Unfolds.disjoint {a b : Handle} {p q : Option Handle} {o o' : Outline}
    (ho : f.Unfolds p a l o) (ho' : f.Unfolds q b l o') (hne : a ≠ b) :
    o.handles.Disjoint o'.handles := by
  intro x hx hx'
  obtain ⟨up, hup, hs⟩ := ho.below x hx
  obtain ⟨up', hup', hs'⟩ := ho'.below x hx'
  cases hup.symm.trans hup'
  have he := (List.suffix_of_suffix_length_le hs hs' (by simp)).eq_of_length (by simp)
  exact hne (List.cons.inj he).1

theorem Unfolds.not_mem {a : Handle} {p : Option Handle} {o : Outline} (hl : f.ancestors h = .ok l)
    (ho : f.Unfolds p a (h :: l) o) : h ∉ o.handles := by
  intro hx
  obtain ⟨up, hup, hs⟩ := ho.below h hx
  cases hup.symm.trans hl
  have hle := hs.length_le
  simp only [List.length_cons] at hle
  omega

theorem Unfolds.above {a : Handle} {p : Option Handle} {o : Outline}
    (ho : f.Unfolds p a (h :: l) o) {x : Handle} (hx : x ∈ o.handles) :
    ∃ up, f.ancestors x = .ok up ∧ (h :: l).IsSuffix (x :: up) := by
  obtain ⟨up, hup, hs⟩ := ho.below x hx
  exact ⟨up, hup, (List.suffix_cons a (h :: l)).trans hs⟩

theorem exists_outlines {P : Handle → Outline → Prop} {hs : List Handle}
    (h : ∀ x ∈ hs, ∃ o, o.handle = x ∧ P x o) :
    ∃ os : List Outline, os.map Outline.handle = hs ∧ ∀ o ∈ os, o.handle ∈ hs ∧ P o.handle o := by
  induction hs with
  | nil => exact ⟨[], rfl, by simp⟩
  | cons x hs ih =>
      obtain ⟨o, rfl, ho⟩ := h x (by simp)
      obtain ⟨os, hos, hP⟩ := ih fun y hy => h y (by simp [hy])
      refine ⟨o :: os, by rw [List.map_cons, hos], ?_⟩
      intro y hy
      rcases List.mem_cons.mp hy with rfl | hy
      · exact ⟨by simp, ho⟩
      · exact ⟨List.mem_cons_of_mem _ (hP y hy).1, (hP y hy).2⟩

theorem nodup_flatMap_handles {os : List Outline} (hd : (os.map Outline.handle).Nodup)
    (ho : ∀ o ∈ os, ∃ p, f.Unfolds p o.handle l o) : (os.flatMap Outline.handles).Nodup := by
  rw [List.nodup_flatMap]
  refine ⟨fun o hm => (ho o hm).choose_spec.nodup, ?_⟩
  rw [List.Nodup, List.pairwise_map] at hd
  refine hd.imp_of_mem ?_
  intro a b ha hb hne
  obtain ⟨p, hp⟩ := ho a ha
  obtain ⟨q, hq⟩ := ho b hb
  exact hp.disjoint hq hne

theorem Unfolds.node {parent : Option Handle} {c : Content} {notes : Notes} {os : List Outline}
    (hl : f.ancestors h = .ok l) (hn : f.look h = some ⟨.plain c, notes, parent, os.map Outline.handle⟩)
    (hc : c.isContainer = true ∨ os = []) (hd : (os.map Outline.handle).Nodup)
    (ho : ∀ o ∈ os, f.Unfolds (some h) o.handle (h :: l) o) :
    f.Unfolds parent h l (.node h c notes os) where
  handle := rfl
  holds := (Outline.holds_node ..).mpr ⟨hn, fun o hm => (ho o hm).holds⟩
  sound := (Outline.sound_node ..).mpr ⟨hc, fun o hm => (ho o hm).sound⟩
  nodup := by
    rw [Outline.handles_node, List.nodup_cons]
    refine ⟨?_, nodup_flatMap_handles hd fun o hm => ⟨_, ho o hm⟩⟩
    rw [List.mem_flatMap]
    rintro ⟨o, hm, hx⟩
    exact (ho o hm).not_mem hl hx
  below := by
    intro x hx
    rw [Outline.handles_node, List.mem_cons, List.mem_flatMap] at hx
    rcases hx with rfl | ⟨o, hm, hx⟩
    · exact ⟨l, hl, List.suffix_refl _⟩
    · exact (ho o hm).above hx

theorem Unfolds.conflict {parent : Option Handle} {form : ConflictForm} {labels : Labels}
    {notes : Notes} {a b : Outline} (hl : f.ancestors h = .ok l)
    (hn : f.look h = some ⟨.conflict form labels a.handle b.handle, notes, parent, []⟩)
    (ha : f.Unfolds (some h) a.handle (h :: l) a) (hb : f.Unfolds (some h) b.handle (h :: l) b)
    (hne : a.handle ≠ b.handle) (hsa : form.suits a = true) (hsb : form.suits b = true) :
    f.Unfolds parent h l (.conflict h form labels notes a b) where
  handle := rfl
  holds := (Outline.holds_conflict ..).mpr ⟨hn, ha.holds, hb.holds⟩
  sound := (Outline.sound_conflict ..).mpr ⟨⟨hsa, hsb⟩, ha.sound, hb.sound⟩
  nodup := by
    rw [Outline.handles_conflict, List.nodup_cons, List.nodup_append', List.mem_append, not_or]
    exact ⟨⟨ha.not_mem hl, hb.not_mem hl⟩, ha.nodup, hb.nodup, ha.disjoint hb hne⟩
  below := by
    intro x hx
    rw [Outline.handles_conflict, List.mem_cons, List.mem_append] at hx
    rcases hx with rfl | hx | hx
    · exact ⟨l, hl, List.suffix_refl _⟩
    · exact ha.above hx
    · exact hb.above hx

theorem suits_of_holds {parent : Option Handle} {form : ConflictForm} {labels : Labels}
    {a b : Handle} {m : Node} {o : Outline} (ho : o.Holds f.look parent)
    (hm : f.look o.handle = some m) (hs : m.kind.canBeSideOf (.conflict form labels a b) = true) :
    form.suits o = true := by
  cases o with
  | node h c n cs =>
      rw [Outline.holds_node] at ho
      cases ho.1.symm.trans hm
      exact hs
  | conflict h form' labels' n l r =>
      rw [Outline.holds_conflict] at ho
      cases ho.1.symm.trans hm
      cases hs

namespace WellFormed

theorem unfolds (hf : f.WellFormed) (room : Nat) (hl : f.ancestors h = .ok l)
    (hr : f.size ≤ l.length + room) (hn : f.look h = some n) :
    ∃ o, f.Unfolds n.parent h l o := by
  -- The chain above a node gets longer on the way down, so the room that it leaves in the table shrinks.
  induction room generalizing h l n with
  | zero =>
      have := length_ancestorsWithin hl
      omega
  | succ room ih =>
      have hlink := hf.linked h (look_lt hn) n hn
      have down : ∀ x m, f.look x = some m → m.parent = some h →
          ∃ o, o.handle = x ∧ f.Unfolds (some h) x (h :: l) o := by
        intro x m hx hm
        have hok := hf.chain x (look_lt hx)
        cases hup : f.ancestors x with
        | error e => simp [hup, Except.isOk, Except.toBool] at hok
        | ok up =>
            obtain ⟨up', rfl, hup'⟩ := ancestors_cons hup hx hm
            cases hup'.symm.trans hl
            obtain ⟨o, ho⟩ := ih hup (by simp only [List.length_cons]; omega) hx
            exact ⟨o, ho.handle, hm ▸ ho⟩
      obtain ⟨kind, notes, parent, children⟩ := n
      cases kind with
      | plain c =>
          obtain ⟨os, rfl, hos⟩ := exists_outlines fun x hx => by
            obtain ⟨m, hm, hp⟩ := hlink.children x hx
            exact down x m hm hp
          refine ⟨.node h c notes os, Unfolds.node hl hn ?_ hlink.nodup fun o hm => (hos o hm).2⟩
          simpa [Kind.isContainer] using hlink.container
      | conflict form labels a b =>
          obtain ⟨m, hm, hmp, hms⟩ := hlink.sides a (by simp [Kind.sides])
          obtain ⟨k, hk, hkp, hks⟩ := hlink.sides b (by simp [Kind.sides])
          obtain ⟨oa, rfl, ha⟩ := down a m hm hmp
          obtain ⟨ob, rfl, hb⟩ := down b k hk hkp
          have hne : oa.handle ≠ ob.handle := by simpa [Kind.sides] using hlink.distinct
          have hnil : children = [] := by simpa [Kind.isContainer] using hlink.container
          subst hnil
          exact ⟨.conflict h form labels notes oa ob, Unfolds.conflict hl hn ha hb hne
            (suits_of_holds ha.holds hm hms) (suits_of_holds hb.holds hk hks)⟩

/-- What can be reached from the root of a well-formed forest is an outline without repetitions. -/
theorem exists_holds (hf : f.WellFormed) : ∃ o : Outline, o.Holds f.look none ∧ o.handles.Nodup ∧
    o.sound = true ∧ o.handle = Forest.root ∧ o.content? = some .tree := by
  obtain ⟨n, hn, hk, hp⟩ := hf.root
  have hok := hf.chain Forest.root (look_lt hn)
  cases hup : f.ancestors Forest.root with
  | error e => simp [hup, Except.isOk, Except.toBool] at hok
  | ok up =>
      obtain ⟨o, ho⟩ := hf.unfolds f.size hup (by omega) hn
      rw [hp] at ho
      refine ⟨o, ho.holds, ho.nodup, ho.sound, ho.handle, ?_⟩
      have hroot := ho.handle
      cases o with
      | node h c n' cs =>
          have hh := ((Outline.holds_node ..).mp ho.holds).1
          rw [Outline.handle_node] at hroot
          subst hroot
          cases hh.symm.trans hn
          cases hk
          rfl
      | conflict h form labels n' a b =>
          have hh := ((Outline.holds_conflict ..).mp ho.holds).1
          rw [Outline.handle_conflict] at hroot
          subst hroot
          cases hh.symm.trans hn
          cases hk

end WellFormed

def ofConstant (name value : String) : Forest :=
  ⟨#[{ kind := .plain .tree, children := [1] },
    { kind := .plain (.leaf (.constant name value)), parent := some root }]⟩

theorem conflictFree_ofConstant (name value : String) : (ofConstant name value).ConflictFree :=
  ⟨_, rfl, rfl⟩

example : (ofConstant "A" "1").WellFormed := by decide

/-- What can be reached from the root of a forest is a sound outline without repetitions. -/
structure Shows (f : Forest) (o : Outline) : Prop where
  holds : o.Holds f.look none
  nodup : o.handles.Nodup
  sound : o.sound = true
  root : o.handle = root
  tree : o.content? = some .tree

theorem Shows.outline {f : Forest} {o : Outline} (h : f.Shows o) : f.outline Forest.root = .ok o := by
  rw [← h.root]
  exact outline_of_holds h.holds h.nodup

theorem WellFormed.exists_shows {f : Forest} (hf : f.WellFormed) : ∃ o, f.Shows o := by
  obtain ⟨o, holds, nodup, sound, root, tree⟩ := hf.exists_holds
  exact ⟨o, holds, nodup, sound, root, tree⟩

end Forest

end Reconcile
