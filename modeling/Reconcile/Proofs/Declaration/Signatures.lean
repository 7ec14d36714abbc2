import Reconcile.Proofs.Declaration.Agreement

namespace Reconcile

section

variable {α : Type} [DecidableEq α] {xs ys : List α}

theorem nodup_union (h : xs.Nodup) (ys : List α) : (union xs ys).Nodup := by
  induction ys generalizing xs with
  | nil => exact h
  | cons y ys ih =>
      rw [union]
      split
      · exact ih h
      · next hy =>
          refine ih (List.nodup_append.mpr ⟨h, by simp, fun x hx y' hy' => ?_⟩)
          rw [List.mem_singleton.mp hy']
          exact ne_of_mem_of_not_mem hx hy

theorem union_eq_append (hy : ys.Nodup) (h : xs.Disjoint ys) : union xs ys = xs ++ ys := by
  induction ys generalizing xs with
  | nil => rw [union, List.append_nil]
  | cons y ys ih =>
      rw [List.disjoint_cons_right] at h
      rw [List.nodup_cons] at hy
      rw [union, if_neg h.1, ih hy.2, List.append_assoc, List.singleton_append]
      rw [List.disjoint_append_left, List.singleton_disjoint]
      exact ⟨h.2, hy.1⟩

theorem union_nil_eq_self_iff : union [] xs = xs ↔ xs.Nodup := by
  refine ⟨fun h => ?_, fun h => union_eq_append h (List.disjoint_nil_left xs)⟩
  rw [← h]
  exact nodup_union List.nodup_nil xs

end

section

variable {xs ys zs : List Signature}

theorem agreeingSignatures_iff :
    agreeingSignatures xs ys = true ↔ xs = [] ∨ ys = [] ∨ xs = ys := by
  simp [agreeingSignatures, or_assoc]

theorem union_eq_self_of_agreeing (h : agreeingSignatures xs ys = true) (hx : xs ≠ []) :
    union xs ys = xs := by
  refine union_eq_left ?_
  rcases agreeingSignatures_iff.mp h with rfl | rfl | rfl
  · exact absurd rfl hx
  · exact List.nil_subset _
  · exact List.Subset.refl _

theorem agreeing_union_of_subset (h : agreeingSignatures xs zs = true) (hz : zs ⊆ xs)
    (hy : agreeingSignatures xs ys = true) : agreeingSignatures (union xs ys) zs = true := by
  by_cases hx : xs = []
  · subst hx
    cases List.subset_nil.mp hz
    exact agreeingSignatures_iff.mpr (Or.inr (Or.inl rfl))
  · rwa [union_eq_self_of_agreeing hy hx]

theorem disagreeing_union (h : agreeingSignatures xs zs = false)
    (hy : agreeingSignatures xs ys = true) : agreeingSignatures (union xs ys) zs = false := by
  rwa [union_eq_self_of_agreeing hy]
  rintro rfl
  cases h

theorem agreeing_union_iff (h : agreeingSignatures xs zs = true) :
    agreeingSignatures (union xs zs) zs = true ↔ (xs = [] → zs.Nodup) := by
  by_cases hx : xs = []
  · subst hx
    rw [agreeingSignatures_iff]
    refine ⟨?_, fun hz => Or.inr (Or.inr (union_nil_eq_self_iff.mpr (hz rfl)))⟩
    rintro (hz | rfl | hz) -
    · have hsub := subset_union_right [] zs
      rw [hz] at hsub
      rw [List.subset_nil.mp hsub]
      exact List.nodup_nil
    · exact List.nodup_nil
    · exact union_nil_eq_self_iff.mp hz
  · rw [union_eq_self_of_agreeing h hx]
    exact ⟨fun _ hnil => absurd hnil hx, fun _ => h⟩

end

namespace Leaf

def signatures : Leaf → List Signature
  | .method m => m.signatures
  | .attribute a => a.signatures
  | _ => []

/-- What is left of a leaf without all that can be united. -/
def bare : Leaf → Leaf
  | .method m => .method { m with signatures := [] }
  | .attribute a => .attribute { a with signatures := [] }
  | .enumeration _ => .enumeration []
  | l => l

variable {k l m : Leaf}

theorem compatible_eq (k l : Leaf) : k.compatible l =
    (k.bare.compatible l.bare && agreeingSignatures k.signatures l.signatures) := by
  cases k <;> cases l <;>
    simp [compatible, bare, signatures, Method.compatible, Attribute.compatible, agreeingSignatures] <;>
    rfl

theorem bare_absorb (k l : Leaf) : (k.absorb l).bare = k.bare := by
  unfold absorb
  split <;> rfl

theorem signatures_absorb (h : k.compatible l = true) :
    (k.absorb l).signatures = union k.signatures l.signatures := by
  unfold absorb
  split
  · rfl
  · rfl
  · rfl
  · unfold compatible at h
    split at h
    · simp_all
    · simp_all
    · simp_all
    · cases h
    · cases of_decide_eq_true h
      exact (union_eq_left (List.Subset.refl _)).symm

theorem compatible_absorb_of_within (h : k.compatible l = true) (hw : l.signatures ⊆ k.signatures)
    (hm : k.compatible m = true) : (k.absorb m).compatible l = true := by
  rw [compatible_eq, bare_absorb, signatures_absorb hm, Bool.and_eq_true]
  rw [compatible_eq, Bool.and_eq_true] at h hm
  exact ⟨h.1, agreeing_union_of_subset h.2 hw hm.2⟩

theorem incompatible_absorb (h : k.compatible l = false) (hm : k.compatible m = true) :
    (k.absorb m).compatible l = false := by
  rw [compatible_eq, bare_absorb, signatures_absorb hm]
  rw [compatible_eq, Bool.and_eq_false_iff] at h
  rw [compatible_eq, Bool.and_eq_true] at hm
  rcases h with h | h
  · rw [h, Bool.false_and]
  · rw [disagreeing_union h hm.2, Bool.and_false]

/-- A leaf that has been united with another one agrees with it unless repetitions were dropped. -/
theorem absorb_compatible_iff (h : k.compatible l = true) :
    (k.absorb l).compatible l = true ↔ (k.signatures = [] → l.signatures.Nodup) := by
  rw [compatible_eq, bare_absorb, signatures_absorb h, Bool.and_eq_true]
  rw [compatible_eq, Bool.and_eq_true] at h
  rw [agreeing_union_iff h.2, and_iff_right h.1]

theorem Within.signatures_subset (h : l.Within k) : l.signatures ⊆ k.signatures := by
  cases h with
  | same => exact List.Subset.refl _
  | ofMethod _ _ _ signatures | ofAttribute _ _ signatures => exact signatures
  | ofEnumeration => exact List.Subset.refl _

theorem Within.absorb_eq (h : l.Within k) : k.absorb l = k := by
  cases h with
  | same => exact absorb_self _
  | ofMethod _ _ _ signatures | ofAttribute _ _ signatures => rw [absorb, union_eq_left signatures]
  | ofEnumeration subset => rw [absorb, union_eq_left subset]

end Leaf

end Reconcile
