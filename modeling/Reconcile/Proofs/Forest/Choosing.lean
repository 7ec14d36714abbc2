import Reconcile.Proofs.Forest.Contest

namespace Reconcile

inductive Side where
  | left
  | right
  deriving DecidableEq

def Side.pick {α : Type} : Side → α → α → α
  | left, a, _ => a
  | right, _, b => b

theorem ConflictForm.exists_scope {o : Outline} (h : headers.suits o = true) :
    ∃ r s n rs, o = .node r (.scope s) n rs := by
  cases o with
  | node r c n rs =>
      cases c with
      | scope s => exact ⟨r, s, n, rs, rfl⟩
      | tree | visibilityGroup | group | leaf => cases h
  | conflict => cases h

namespace Outline

def withBody (body : List Outline) : Outline → Outline
  | node h c n _ => node h c n body
  | o => o

mutual

def resolvedTo (side : Side) : Outline → List Outline
  | node h c n cs => [node h c n (resolvedToAll side cs)]
  | conflict _ .declarations _ _ l r =>
      (side.pick (l.resolvedTo side) (r.resolvedTo side)).flatMap children
  | conflict _ .headers _ _ l r =>
      [(side.pick l r).withBody ((l.resolvedTo side).flatMap children)]

def resolvedToAll (side : Side) : List Outline → List Outline
  | [] => []
  | o :: os => o.resolvedTo side ++ resolvedToAll side os

end

/-- A conflict of declarations has something on both sides. -/
def hasFilledSides : Outline → Bool
  | conflict _ .declarations _ _ l r => !l.children.isEmpty && !r.children.isEmpty
  | _ => true

def filledSides (o : Outline) : Bool := o.subtrees.all hasFilledSides

variable {side : Side} {o : Outline}

@[simp] theorem resolvedToAll_eq (os : List Outline) :
    resolvedToAll side os = os.flatMap (resolvedTo side) := by
  induction os with
  | nil => rfl
  | cons o os ih => simp [resolvedToAll, ih]

@[simp] theorem resolvedTo_node (h : Handle) (c : Content) (n : Notes) (cs : List Outline) :
    (node h c n cs).resolvedTo side = [node h c n (cs.flatMap (resolvedTo side))] := by
  simp [resolvedTo]

@[simp] theorem filledSides_node (h : Handle) (c : Content) (n : Notes) (cs : List Outline) :
    (node h c n cs).filledSides = true ↔ ∀ o ∈ cs, o.filledSides = true := by
  simp [filledSides, hasFilledSides]

@[simp] theorem filledSides_conflict (h : Handle) (form : ConflictForm) (labels : Labels) (n : Notes)
    (l r : Outline) : (conflict h form labels n l r).filledSides = true ↔
      hasFilledSides (conflict h form labels n l r) = true ∧ l.filledSides = true ∧
        r.filledSides = true := by
  simp [filledSides]

theorem resolvedTo_ne_nil (side : Side) (hs : o.sound = true) (ho : o.filledSides = true) :
    o.resolvedTo side ≠ [] ∧ (o.children ≠ [] → o.children.flatMap (resolvedTo side) ≠ []) := by
  induction o with
  | node h c n cs ih =>
      rw [sound_node] at hs
      rw [filledSides_node] at ho
      constructor
      · simp
      · rw [children]
        intro hne hempty
        obtain ⟨o, os, rfl⟩ := List.exists_cons_of_ne_nil hne
        rw [List.flatMap_cons, List.append_eq_nil_iff] at hempty
        exact (ih o (by simp) (hs.2 o (by simp)) (ho o (by simp))).1 hempty.1
  | conflict h form labels n l r ihl ihr =>
      rw [sound_conflict] at hs
      rw [filledSides_conflict] at ho
      constructor
      · cases form with
        | headers => simp [resolvedTo]
        | declarations =>
            obtain ⟨hfull, hl, hr⟩ := ho
            simp only [hasFilledSides, Bool.and_eq_true, Bool.not_eq_true', List.isEmpty_eq_false_iff]
              at hfull
            have hleft := (ihl hs.2.1 hl).2 hfull.1
            have hright := (ihr hs.2.2 hr).2 hfull.2
            obtain ⟨hl', n', cs, rfl⟩ := ConflictForm.exists_tree hs.1.1
            obtain ⟨hr', m', ds, rfl⟩ := ConflictForm.exists_tree hs.1.2
            cases side with
            | left => simpa [resolvedTo, Side.pick, children] using hleft
            | right => simpa [resolvedTo, Side.pick, children] using hright
      · simp [children]

end Outline

end Reconcile
