import Mathlib.Data.List.Basic
import Reconcile.Declaration.Compatibility
import Reconcile.Declaration.Identity

namespace Reconcile

theorem subset_union {α : Type} [DecidableEq α] (xs ys : List α) : xs ⊆ union xs ys := by
  induction ys generalizing xs with
  | nil => exact fun _ h => h
  | cons y ys ih =>
      rw [union]
      split
      · exact ih xs
      · exact List.Subset.trans (List.subset_append_left xs [y]) (ih (xs ++ [y]))

theorem subset_union_right {α : Type} [DecidableEq α] (xs ys : List α) : ys ⊆ union xs ys := by
  induction ys generalizing xs with
  | nil => exact List.nil_subset _
  | cons y ys ih =>
      rw [union]
      refine List.cons_subset.mpr ⟨?_, ih _⟩
      split
      · exact subset_union xs ys ‹_›
      · exact subset_union _ ys (by simp)

theorem sameShapes_refl (ps : List Param) : sameShapes ps ps = true := by
  induction ps with
  | nil => rfl
  | cons p ps ih => simp [sameShapes, Param.sameShape, ih]

theorem sameShapes_symm {ps qs : List Param} (h : sameShapes ps qs = true) :
    sameShapes qs ps = true := by
  induction ps generalizing qs with
  | nil => cases qs <;> simp_all [sameShapes]
  | cons p ps ih =>
      cases qs with
      | nil => cases h
      | cons q qs =>
          simp only [sameShapes, Param.sameShape, Bool.and_eq_true, decide_eq_true_eq] at h ⊢
          exact ⟨⟨h.1.1.symm, h.1.2.symm⟩, ih h.2⟩

theorem sameShapes_trans {ps qs rs : List Param} (h : sameShapes ps qs = true)
    (h' : sameShapes qs rs = true) : sameShapes ps rs = true := by
  induction ps generalizing qs rs with
  | nil =>
      cases qs with
      | nil => exact h'
      | cons => cases h
  | cons p ps ih =>
      cases qs with
      | nil => cases h
      | cons q qs =>
          cases rs with
          | nil => cases h'
          | cons r rs =>
              simp only [sameShapes, Param.sameShape, Bool.and_eq_true, decide_eq_true_eq] at h h' ⊢
              exact ⟨⟨h.1.1.trans h'.1.1, h.1.2.trans h'.1.2⟩, ih h.2 h'.2⟩

/-- The second leaf is of the variant and shape of the first and says at least as much. -/
inductive Leaf.Within : Leaf → Leaf → Prop
  | same (l : Leaf) : Within l l
  | ofMethod {m m' : Method} (name : m.name = m'.name) (singleton : m.isSingleton = m'.isSingleton)
      (params : sameShapes m.params m'.params = true) (signatures : m.signatures ⊆ m'.signatures) :
      Within (.method m) (.method m')
  | ofAttribute {a a' : Attribute} (kind : a.kind = a'.kind) (names : a.names = a'.names)
      (signatures : a.signatures ⊆ a'.signatures) : Within (.attribute a) (.attribute a')
  | ofEnumeration {names names' : List String} (subset : names ⊆ names') :
      Within (.enumeration names) (.enumeration names')

namespace Leaf

variable {l l' l'' : Leaf}

theorem Within.eq_of_constant {name value : String} (h : (constant name value).Within l) :
    l = constant name value := by
  cases h
  rfl

theorem Within.trans (h : l.Within l') (h' : l'.Within l'') : l.Within l'' := by
  cases h with
  | same => exact h'
  | ofMethod name singleton params signatures =>
      cases h' with
      | same => exact .ofMethod name singleton params signatures
      | ofMethod name' singleton' params' signatures' =>
          exact .ofMethod (name.trans name') (singleton.trans singleton')
            (sameShapes_trans params params') (List.Subset.trans signatures signatures')
  | ofAttribute kind names signatures =>
      cases h' with
      | same => exact .ofAttribute kind names signatures
      | ofAttribute kind' names' signatures' =>
          exact .ofAttribute (kind.trans kind') (names.trans names')
            (List.Subset.trans signatures signatures')
  | ofEnumeration subset =>
      cases h' with
      | same => exact .ofEnumeration subset
      | ofEnumeration subset' => exact .ofEnumeration (List.Subset.trans subset subset')

theorem Within.keys_eq (h : l.Within l') (outer : String) : l'.keys outer = l.keys outer := by
  cases h with
  | same => rfl
  | ofMethod name singleton => simp only [keys, name, singleton]
  | ofAttribute kind names => simp only [keys, Attribute.keys, kind, names]
  | ofEnumeration => rfl

theorem within_absorb (l l' : Leaf) : l.Within (l.absorb l') := by
  unfold absorb
  split
  · exact .ofMethod rfl rfl (sameShapes_refl _) (subset_union _ _)
  · exact .ofAttribute rfl rfl (subset_union _ _)
  · exact .ofEnumeration (subset_union _ _)
  · exact .same _

theorem Within.of_compatible (h : l.compatible l' = true) : l'.Within (l.absorb l') := by
  unfold absorb
  split
  · simp only [compatible, Method.compatible, Bool.and_eq_true, decide_eq_true_eq] at h
    exact .ofMethod h.1.1.1.symm h.1.1.2.symm (sameShapes_symm h.1.2) (subset_union_right _ _)
  · simp only [compatible, Attribute.compatible, Bool.and_eq_true, decide_eq_true_eq] at h
    exact .ofAttribute h.1.1.symm h.1.2.symm (subset_union_right _ _)
  · exact .ofEnumeration (subset_union_right _ _)
  · unfold compatible at h
    split at h
    · simp_all
    · simp_all
    · simp_all
    · cases h
    · cases of_decide_eq_true h
      exact .same _

theorem keys_eq_nil_iff (l : Leaf) (a b : String) : l.keys a = [] ↔ l.keys b = [] := by
  unfold keys
  split
  · simp
  · simp
  · rename_i x
    simp only [Attribute.keys, List.flatMap_eq_nil_iff]
    cases x.kind <;> simp
  · simp
  · simp
  · split <;> simp
  · simp
  · simp
  · simp

end Leaf

end Reconcile
