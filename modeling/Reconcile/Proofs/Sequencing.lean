import Mathlib.Data.List.Forall2

namespace Reconcile

variable {ε α β : Type}

theorem exists_of_bind_eq_ok {x : Except ε α} {g : α → Except ε β} {b : β}
    (h : (x >>= g) = .ok b) : ∃ a, x = .ok a ∧ g a = .ok b := by
  cases x with
  | error => cases h
  | ok a => exact ⟨a, rfl, h⟩

theorem foldlM_invariant {step : β → α → Except ε β} {P : β → Prop} {xs : List α}
    (h : ∀ b, P b → ∀ x ∈ xs, ∃ b', step b x = .ok b' ∧ P b') {b : β} (hb : P b) :
    ∃ b', xs.foldlM step b = .ok b' ∧ P b' := by
  induction xs generalizing b with
  | nil => exact ⟨b, rfl, hb⟩
  | cons x xs ih =>
      obtain ⟨b₁, he₁, hb₁⟩ := h b hb x (by simp)
      obtain ⟨b₂, he₂, hb₂⟩ := ih (fun b hb y hy => h b hb y (by simp [hy])) hb₁
      refine ⟨b₂, ?_, hb₂⟩
      rw [List.foldlM_cons, he₁]
      exact he₂

theorem foldlM_keeps {step : β → α → Except ε β} {P : β → Prop} {xs : List α}
    (h : ∀ b x b', step b x = .ok b' → P b → P b') {b b' : β} (hs : xs.foldlM step b = .ok b')
    (hb : P b) : P b' := by
  induction xs generalizing b with
  | nil =>
      cases hs
      exact hb
  | cons x xs ih =>
      rw [List.foldlM_cons] at hs
      obtain ⟨c, hc, hs⟩ := exists_of_bind_eq_ok hs
      exact ih hs (h b x c hc hb)

variable {g : α → Except ε β} {as : List α} {bs : List β}

theorem forall₂_of_mapM (h : as.mapM g = .ok bs) :
    List.Forall₂ (fun a b => g a = .ok b) as bs := by
  induction as generalizing bs with
  | nil =>
      cases h
      exact .nil
  | cons a as ih =>
      rw [List.mapM_cons] at h
      obtain ⟨b, ha, h⟩ := exists_of_bind_eq_ok h
      obtain ⟨bs, has, h⟩ := exists_of_bind_eq_ok h
      cases h
      exact .cons ha (ih has)

theorem exists_mapM (hg : ∀ a ∈ as, ∃ b, g a = .ok b) : ∃ bs, as.mapM g = .ok bs := by
  induction as with
  | nil => exact ⟨[], rfl⟩
  | cons a as ih =>
      obtain ⟨b, ha⟩ := hg a List.mem_cons_self
      obtain ⟨bs, has⟩ := ih fun x hx => hg x (List.mem_cons_of_mem a hx)
      refine ⟨b :: bs, ?_⟩
      rw [List.mapM_cons, ha, has]
      rfl

theorem lookup_eq_some_iff_mem [BEq α] [LawfulBEq α] {entries : List (α × β)} {key : α} {b : β}
    (h : (entries.map Prod.fst).Nodup) : entries.lookup key = some b ↔ (key, b) ∈ entries := by
  induction entries with
  | nil => simp
  | cons entry entries ih =>
      obtain ⟨key', b'⟩ := entry
      rw [List.map_cons, List.nodup_cons] at h
      by_cases he : key = key'
      · subst he
        have hnot : (key, b) ∉ entries := fun hm => h.1 (List.mem_map.mpr ⟨_, hm, rfl⟩)
        simp [hnot, eq_comm]
      · have hne : (key == key') = false := by simpa using he
        simp [List.lookup_cons, hne, he, ih h.2]

end Reconcile
