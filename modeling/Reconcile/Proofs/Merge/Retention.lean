import Reconcile.Proofs.Merge.Lasting
import Reconcile.Proofs.Merge.Progress
import Reconcile.Proofs.Merge.Run

namespace Reconcile

theorem Scope.qualify_ne_empty (s : Scope) (outer : String) : s.qualify outer ≠ "" := by
  have named (name : String) : (if isAbsolute name then name else outer ++ "::" ++ name) ≠ "" := by
    split
    · rintro rfl
      cases ‹isAbsolute "" = true›
    · simp
  cases s with
  | moduleNamed name | classNamed name => exact named name
  | singleton => simp [qualify]

def Outline.unkeyed (o : Outline) : List (Leaf × Notes) :=
  o.leaves.filter fun x => (x.1.keys "").isEmpty

theorem Frame.unkeyed_fill (fr : Frame) :
    ∃ rest, ∀ o : Outline, (fr.fill o).unkeyed.Perm (o.unkeyed ++ rest) := by
  obtain ⟨rest, hrest⟩ := fr.leaves_fill
  refine ⟨rest.filter fun x => (x.1.keys "").isEmpty, fun o => ?_⟩
  have hp := (hrest o).filter fun x => (x.1.keys "").isEmpty
  rwa [List.filter_append] at hp

namespace Merge

open Outline (plug)

def Event.unkeyed : Event → List (Leaf × Notes)
  | .declare l n => if (l.keys "").isEmpty then [(l, n)] else []
  | _ => []

namespace Draft

/-- A leaf is part of a declaration with one of its keys, or opposes one. -/
def KeepsLeaf (P : Draft) (name : String) (l : Leaf) (n : Notes) : Prop :=
  (∃ e ∈ P.census, ∃ l', e.content = .leaf l' ∧ (∃ key ∈ l.keys name, key ∈ e.keys) ∧ l.Within l' ∧
    n.comments ⊆ e.notes.comments) ∨
  ∃ r ∈ P.conflicts, r.key ∈ l.keys name ∧ .node r.right (.leaf l) n [] ∈ P.outline.rivals

/-- A scope of this name carries the comments. -/
def Remarks (P : Draft) (name : String) (s : Scope) (comments : List String) : Prop :=
  ∃ e ∈ P.census, e.content = .scope s ∧ s.qualify e.outer = name ∧ comments ⊆ e.notes.comments

/-- A header is that of the scope of its name, or is recorded against it. -/
def KeepsScope (P : Draft) (name : String) (s : Scope) (n : Notes) : Prop :=
  P.Remarks name s n.comments ∨
  ∃ r ∈ P.conflicts, r.key = name ∧ .node r.right (.scope s) n [] ∈ P.outline.rivals ++ P.loose

def KeepsComments (P : Draft) (name : String) (comments : List String) : Prop :=
  if name = "" then comments ⊆ P.outline.notes.comments else ∃ s, P.Remarks name s comments

variable {P Q : Draft} {name : String} {l : Leaf} {n : Notes} {s : Scope} {comments : List String}

namespace Lasts

variable (h : P.Lasts Q)
include h

theorem conflicts {r : Conflict} (hr : r ∈ P.conflicts) : r ∈ Q.conflicts := by
  obtain ⟨-, -, records, -, -, hc, -⟩ := h.contests
  rw [hc]
  exact List.mem_append_left _ hr

theorem rivals {x : Outline} (hx : x ∈ P.outline.rivals) : x ∈ Q.outline.rivals := by
  obtain ⟨new, -, -, hp, -⟩ := h.contests
  exact hp.mem_iff.mpr (List.mem_append_left _ hx)

theorem loose {x : Outline} (hx : x ∈ P.loose) : x ∈ Q.loose := by
  obtain ⟨-, kept, -, -, hl, -⟩ := h.contests
  rw [hl]
  exact List.mem_append_left _ hx

theorem keepsLeaf (hk : P.KeepsLeaf name l n) : Q.KeepsLeaf name l n := by
  rcases hk with ⟨e, he, l', hc, ⟨key, hkey, hkey'⟩, hw, hn⟩ | ⟨r, hr, hkey, hx⟩
  · obtain ⟨e', he', hg⟩ := h.census e he
    have hn' := List.Subset.trans hn hg.comments
    rw [← hg.keys_eq] at hkey'
    rcases hg.content with hc' | ⟨k, k', hk, hk', hw'⟩
    · exact Or.inl ⟨e', he', l', hc'.trans hc, ⟨key, hkey, hkey'⟩, hw, hn'⟩
    · cases hk.symm.trans hc
      exact Or.inl ⟨e', he', k', hk', ⟨key, hkey, hkey'⟩, hw.trans hw', hn'⟩
  · exact Or.inr ⟨r, h.conflicts hr, hkey, h.rivals hx⟩

theorem remarks (hk : P.Remarks name s comments) : Q.Remarks name s comments := by
  obtain ⟨e, he, hc, hq, hn⟩ := hk
  obtain ⟨e', he', hg⟩ := h.census e he
  exact ⟨e', he', hg.scope_eq hc, by rw [hg.outer, hq], List.Subset.trans hn hg.comments⟩

theorem keepsScope (hk : P.KeepsScope name s n) : Q.KeepsScope name s n := by
  rcases hk with hk | ⟨r, hr, hkey, hx⟩
  · exact Or.inl (h.remarks hk)
  · refine Or.inr ⟨r, h.conflicts hr, hkey, ?_⟩
    rw [List.mem_append] at hx ⊢
    exact hx.imp h.rivals h.loose

theorem keepsComments (hk : P.KeepsComments name comments) : Q.KeepsComments name comments := by
  unfold KeepsComments at hk ⊢
  split at hk
  · rw [if_pos ‹_›]
    exact List.Subset.trans hk h.comments
  · rw [if_neg ‹_›]
    obtain ⟨s, hk⟩ := hk
    exact ⟨s, h.remarks hk⟩

end Lasts

theorem Valid.qualify_eq (hv : P.Valid) {key : String} {h : Handle} {m : Notes} {cs : List Outline}
    {path : List Frame} (hu : P.scopeUnder? key = some h)
    (hp : P.outline = plug path (.node h (.scope s) m cs)) : s.qualify (pathName "" path) = key := by
  obtain ⟨e, he, hh, s', hs', hq⟩ := scope_of_scopeUnder hv.laden hu
  have hm : ⟨h, pathName "" path, .scope s, m⟩ ∈ P.census := by
    rw [census, hp]
    exact Outline.mem_census_plug "" path rfl
  cases Outline.census_unique hv.nodup_outline he hm hh
  cases hs'
  exact hq

end Draft

variable {o : Options} {P Q : Draft} {e : Event} {es : List (String × Event)} {l : Leaf} {n : Notes} {s : Scope} {comments : List String}

namespace Step

theorem keepsLeaf (hk : o.keep = .both) (hv : P.Valid) (hs : Step o P (.declare l n) Q)
    (hkeys : l.keys P.name ≠ []) : Q.KeepsLeaf P.name l n := by
  cases hs with
  | newLeaf _ _ path c m cs hu hp hc hn =>
      obtain ⟨key, hkey⟩ := List.exists_mem_of_ne_nil _ hkeys
      have he : ⟨P.next, P.name, .leaf l, n⟩ ∈ (plug path (.node P.current c m
          (cs ++ [.node P.next (.leaf l) n []]))).census "" :=
        (Draft.census_added hp rfl hn).mem_iff.mpr List.mem_cons_self
      exact Or.inl ⟨_, he, l, rfl, ⟨key, hkey, hkey⟩, .same l, List.Subset.refl _⟩
  | unitedLeaf _ _ path key h l' m cs hu hp hl =>
      obtain ⟨-, hkey, hkey'⟩ := hv.mem_keys path hu hp
      refine Or.inl ⟨⟨h, pathName "" path, .leaf (l'.absorb l), m.addComments n.comments⟩,
        Outline.mem_census_plug "" path rfl, _, rfl, ⟨key, hkey, ?_⟩, .of_compatible hl,
        subset_union_right _ _⟩
      change key ∈ (l'.absorb l).keys _
      rwa [(l'.within_absorb l).keys_eq]
  | keptLeaf _ _ _ _ _ _ _ _ _ _ _ hk' => cases hk.symm.trans hk'
  | joinedLeaf _ _ path key q old nq b nb before after h c m cs r nr rs hu hp =>
      refine Or.inr ⟨⟨key, h, P.next, o.labels⟩, by simp [Draft.record],
        (Draft.mem_of_previous hu).1, Outline.rivals_plug path ?_⟩
      simp [ConflictForm.rivals, Outline.children]
  | opposedLeaf _ _ path key q d nq before after h c m cs hu hp =>
      refine Or.inr ⟨⟨key, h, P.next, o.labels⟩, by simp [Draft.record],
        (Draft.mem_of_previous hu).1, Outline.rivals_plug path ?_⟩
      simp [ConflictForm.rivals, Outline.children]
  | opposedHeaders _ _ path key q d nq before after k old nk h c m cs r hu hp =>
      refine Or.inr ⟨⟨key, h, P.next, o.labels⟩, by simp [Draft.record],
        (Draft.mem_of_previous hu).1, Outline.rivals_plug path ?_⟩
      simp [ConflictForm.rivals, Outline.children]

theorem keepsScope (hk : o.keep = .both) (hv : P.Valid) (hs : Step o P (.enter s n) Q) :
    Q.KeepsScope (s.qualify P.name) s n := by
  cases hs with
  | newScope _ _ path c m cs hu hp hc hn =>
      have he : ⟨P.next, P.name, .scope s, n⟩ ∈ (plug path (.node P.current c m
          (cs ++ [.node P.next (.scope s) n []]))).census "" :=
        (Draft.census_added hp rfl hn).mem_iff.mpr List.mem_cons_self
      exact Or.inl ⟨_, he, rfl, rfl, List.Subset.refl _⟩
  | knownScope _ _ path h m cs hu hp =>
      exact Or.inl ⟨_, Outline.mem_census_plug "" path rfl, rfl, hv.qualify_eq hu hp,
        subset_union_right _ _⟩
  | keptHeader _ _ _ _ _ _ _ _ _ _ hk' => cases hk.symm.trans hk'
  | contestedHeader _ _ path q c nq before after h t m cs hu hp =>
      refine Or.inr ⟨⟨s.qualify P.name, h, P.next, o.labels⟩, by simp [Draft.record], rfl,
        List.mem_append_left _ (Outline.rivals_plug path ?_)⟩
      simp [ConflictForm.rivals]
  | repeatedHeader _ _ path q old nq r h t m cs hu hp =>
      exact Or.inr ⟨⟨s.qualify P.name, h, P.next, o.labels⟩, by simp [Draft.record], rfl,
        List.mem_append_right _ (by simp)⟩

theorem keepsComments (hv : P.Valid) (hs : Step o P (.remark comments) Q) :
    Q.KeepsComments P.name comments := by
  cases hs with
  | remarked _ path c m cs hp hn =>
      unfold Draft.KeepsComments
      rcases hv.standing.current_cases hp with ⟨s, rfl⟩ | ⟨-, rfl, hname⟩
      · have hq : s.qualify (pathName "" path) = P.name := hn
        rw [if_neg (hq ▸ s.qualify_ne_empty _)]
        exact ⟨s, _, Outline.mem_census_plug "" path rfl, rfl, hq, subset_union_right _ _⟩
      · rw [if_pos hname]
        exact subset_union_right _ _

end Step

theorem unkeyed_of_mem {key name : String} (hk : key ∈ l.keys name) : (l.keys "").isEmpty = false := by
  rw [Bool.eq_false_iff, ne_eq, List.isEmpty_iff, l.keys_eq_nil_iff "" name]
  exact List.ne_nil_of_mem hk

/-- Leaves without keys are placed as they are, and nothing happens to them afterwards. -/
theorem Step.unkeyed (hv : P.Valid) (hs : Step o P e Q) :
    Q.outline.unkeyed.Perm (P.outline.unkeyed ++ e.unkeyed) := by
  have edited {path : List Frame} {x y : Outline} {new : List (Leaf × Notes)}
      (hp : P.outline = plug path x) (h : y.unkeyed = x.unkeyed ++ new) :
      (plug path y).unkeyed.Perm (P.outline.unkeyed ++ new) := by
    rw [hp]
    exact perm_plug Frame.unkeyed_fill path (.of_eq h)
  have keyed {key : String} {h : Handle} {l : Leaf} {n : Notes}
      (hu : P.previous? (l.keys P.name) = some (key, h)) : (Event.declare l n).unkeyed = [] := by
    simp [Event.unkeyed, unkeyed_of_mem (Draft.mem_of_previous hu).1]
  cases hs with
  | newScope s n path c m cs hu hp => exact edited hp (by simp [Outline.unkeyed, Outline.ownLeaf, Event.unkeyed])
  | knownScope s n path h m cs hu hp => exact edited hp (by simp [Outline.unkeyed, Outline.ownLeaf, Event.unkeyed])
  | keptHeader | left | repeatedHeader => simp [Event.unkeyed]
  | contestedHeader s n path q c nq before after h t m cs hu hp =>
      exact edited hp (by simp [Outline.unkeyed, Outline.ownLeaf, Event.unkeyed])
  | newLeaf l n path c m cs hu hp =>
      refine edited hp ?_
      simp [Outline.unkeyed, Outline.ownLeaf, Event.unkeyed, List.filter_singleton]
  | unitedLeaf l n path key h l' m cs hu hp hl =>
      have hl' := unkeyed_of_mem (hv.mem_keys path hu hp).2.2
      have habsorb : ((l'.absorb l).keys "").isEmpty = false := by
        rw [(l'.within_absorb l).keys_eq, hl']
      rw [keyed hu]
      exact edited hp (by simp [Outline.unkeyed, Outline.ownLeaf, hl', habsorb])
  | keptLeaf l n path key h c m cs hu => simp [keyed hu]
  | joinedLeaf l n path key q old nq b nb before after h c m cs r nr rs hu hp =>
      have hl := unkeyed_of_mem (Draft.mem_of_previous hu).1
      rw [keyed hu]
      exact edited hp (by simp [Outline.unkeyed, Outline.ownLeaf, hl])
  | opposedLeaf l n path key q d nq before after h c m cs hu hp =>
      have hl := unkeyed_of_mem (Draft.mem_of_previous hu).1
      rw [keyed hu]
      exact edited hp (by simp [Outline.unkeyed, Outline.ownLeaf, hl])
  | opposedHeaders l n path key q d nq before after k old nk h c m cs r hu hp =>
      have hl := unkeyed_of_mem (Draft.mem_of_previous hu).1
      rw [keyed hu]
      exact edited hp (by simp [Outline.unkeyed, Outline.ownLeaf, hl])
  | remarked comments path c m cs hp =>
      refine edited hp ?_
      rcases hv.standing.current_cases hp with ⟨s, rfl⟩ | ⟨rfl, -⟩ <;>
        simp [Outline.unkeyed, Outline.ownLeaf, Event.unkeyed]

theorem Runs.unkeyed (hr : Runs o P es Q) (hv : P.Valid) :
    Q.outline.unkeyed.Perm (P.outline.unkeyed ++ es.flatMap (·.2.unkeyed)) := by
  induction hr with
  | nil => simp
  | cons hs _ ih =>
      rw [List.flatMap_cons, ← List.append_assoc]
      exact (ih (hs.valid hv)).trans ((hs.unkeyed hv).append_right _)

end Merge

end Reconcile
