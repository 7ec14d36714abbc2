import Reconcile.Declaration.Identity
import Reconcile.Proofs.Forest.Subtree

namespace Reconcile

/-- The name that a node gives to what is directly in it. -/
def Content.qualify (outer : String) (c : Content) : String :=
  match c.scope? with
  | some s => s.qualify outer
  | none => outer

/-- A node with a hole in the place of one of its children or of its left side. Frames make up a way down
from the root, the innermost first, that never enters the right side of a conflict. -/
inductive Frame where
  | node (handle : Handle) (content : Content) (notes : Notes) (before after : List Outline)
  | left (handle : Handle) (form : ConflictForm) (labels : Labels) (notes : Notes) (right : Outline)

namespace Frame

def handle : Frame → Handle
  | node h .. | left h .. => h

def fill : Frame → Outline → Outline
  | node h content notes before after, o => .node h content notes (before ++ o :: after)
  | left h form labels notes right, o => .conflict h form labels notes o right

def siblings : Frame → List Outline
  | node _ _ _ before after => before ++ after
  | left _ _ _ _ right => [right]

def handles (fr : Frame) : List Handle := fr.handle :: fr.siblings.flatMap Outline.handles

def scope? : Frame → Option Scope
  | node _ content _ _ _ => content.scope?
  | left .. => none

def qualify (outer : String) : Frame → String
  | node _ content _ _ _ => content.qualify outer
  | left .. => outer

def admits : Frame → Outline → Bool
  | node _ content _ _ _, _ => content.isContainer
  | left _ form _ _ right, o => form.suits o && form.suits right

@[simp] theorem handle_fill (fr : Frame) (o : Outline) : (fr.fill o).handle = fr.handle := by
  cases fr <;> rfl

theorem content?_fill (fr : Frame) (o o' : Outline) : (fr.fill o).content? = (fr.fill o').content? := by
  cases fr <;> rfl

theorem admits_congr (fr : Frame) {o o' : Outline} (h : o.content? = o'.content?) :
    fr.admits o = fr.admits o' := by
  cases fr <;> simp [admits, ConflictForm.suits, h]

theorem handles_fill (fr : Frame) (o : Outline) : (fr.fill o).handles.Perm (fr.handles ++ o.handles) := by
  cases fr with
  | node h c n before after =>
      simp only [fill, Outline.handles_node, handles, handle, siblings, List.flatMap_append,
        List.flatMap_cons, List.cons_append, List.append_assoc]
      exact .cons _ (.append_left _ List.perm_append_comm)
  | left h form labels n r =>
      simp only [fill, Outline.handles_conflict, handles, handle, siblings, List.flatMap_cons,
        List.flatMap_nil, List.append_nil, List.cons_append]
      exact .cons _ List.perm_append_comm

theorem sound_fill (fr : Frame) (o : Outline) : (fr.fill o).sound = true ↔
    fr.admits o = true ∧ (∀ x ∈ fr.siblings, x.sound = true) ∧ o.sound = true := by
  cases fr with
  | node h c n before after =>
      simp only [fill, Outline.sound_node, admits, siblings, List.append_eq_nil_iff, reduceCtorEq,
        and_false, or_false, List.mem_append, List.mem_cons]
      grind
  | left h form labels n r =>
      simp only [fill, Outline.sound_conflict, admits, siblings, List.mem_singleton, forall_eq,
        Bool.and_eq_true]
      tauto

end Frame

namespace Outline

/-- Puts an outline at the end of a way down. -/
def plug : List Frame → Outline → Outline
  | [], o => o
  | fr :: path, o => plug path (fr.fill o)

end Outline

def pathHandles (path : List Frame) : List Handle := path.flatMap Frame.handles

/-- The qualified name of the scope at the end of a way down that starts in `outer`. -/
def pathName (outer : String) (path : List Frame) : String :=
  path.foldr (fun fr name => fr.qualify name) outer

namespace Outline

variable {path : List Frame} {o o' : Outline}

theorem plug_append (inner outer : List Frame) (o : Outline) :
    plug (inner ++ outer) o = plug outer (plug inner o) := by
  induction inner generalizing o with
  | nil => rfl
  | cons fr inner ih => exact ih (fr.fill o)

theorem handle_plug (h : o.handle = o'.handle) : (plug path o).handle = (plug path o').handle := by
  induction path generalizing o o' with
  | nil => exact h
  | cons fr path ih => exact ih (by simp)

theorem content?_plug (hc : ∀ c, o.content? = some c → o'.content? = some c) {c : Content}
    (h : (plug path o).content? = some c) : (plug path o').content? = some c := by
  induction path generalizing o o' with
  | nil => exact hc c h
  | cons fr path ih => exact ih (fun c hc => by rw [← hc, fr.content?_fill o' o]) h

theorem subtrees_plug (path : List Frame) : o.subtrees ⊆ (plug path o).subtrees := by
  induction path generalizing o with
  | nil => exact List.Subset.refl _
  | cons fr path ih =>
      refine List.Subset.trans ?_ ih
      intro x hx
      cases fr with
      | node h c n before after => simp [Frame.fill, hx]
      | left h form labels n r => simp [Frame.fill, hx]

theorem handles_plug (path : List Frame) (o : Outline) :
    (plug path o).handles.Perm (pathHandles path ++ o.handles) := by
  induction path generalizing o with
  | nil => exact .refl _
  | cons fr path ih =>
      refine (ih (fr.fill o)).trans ?_
      have hp := (fr.handles_fill o).append_left (pathHandles path)
      refine hp.trans ?_
      rw [← List.append_assoc]
      exact List.perm_append_comm.append_right _

theorem eq_nil_of_plug (h : plug path o = o) : path = [] := by
  have hlen := (handles_plug path o).length_eq
  rw [h, List.length_append, Nat.right_eq_add, List.length_eq_zero_iff] at hlen
  cases path with
  | nil => rfl
  | cons => simp [pathHandles, Frame.handles] at hlen

theorem nodup_plug_iff : (plug path o).handles.Nodup ↔
    (pathHandles path).Nodup ∧ o.handles.Nodup ∧ (pathHandles path).Disjoint o.handles := by
  rw [(handles_plug path o).nodup_iff, List.nodup_append']

theorem sound_plug_of (hs : (plug path o).sound = true) (ho : o.sound = true → o'.sound = true)
    (hf : ∀ fr rest, path = fr :: rest → fr.admits o = true → fr.admits o' = true) :
    (plug path o').sound = true := by
  induction path generalizing o o' with
  | nil => exact ho hs
  | cons fr path ih =>
      refine ih hs ?_ ?_
      · intro hfill
        obtain ⟨ha, hsib, hsound⟩ := (fr.sound_fill o).mp hfill
        exact (fr.sound_fill o').mpr ⟨hf fr path rfl ha, hsib, ho hsound⟩
      · intro fr' rest _ ha
        rwa [← Frame.admits_congr fr' (fr.content?_fill o o')]

theorem sound_of_plug (hs : (plug path o).sound = true) : o.sound = true := by
  induction path generalizing o with
  | nil => exact hs
  | cons fr path ih => exact ((fr.sound_fill o).mp (ih hs)).2.2

theorem admits_of_sound {fr : Frame} (hs : (plug (fr :: path) o).sound = true) : fr.admits o = true :=
  ((fr.sound_fill o).mp (@sound_of_plug path _ hs)).1

end Outline

end Reconcile
