import Mathlib.Data.List.Basic
import Mathlib.Data.Prod.Lex
import Mathlib.Data.String.Basic
import Mathlib.Order.WithBot
import Reconcile.Normal.Order

namespace Reconcile

variable {α β : Type} {le : α → α → Bool}

theorem perm_insertSorted (le : α → α → Bool) (a : α) (l : List α) :
    (insertSorted le a l).Perm (a :: l) := by
  induction l with
  | nil => exact .refl _
  | cons b l ih =>
      rw [insertSorted]
      split
      · exact .refl _
      · exact (ih.cons b).trans (.swap a b l)

theorem perm_sortBy (le : α → α → Bool) (l : List α) : (sortBy le l).Perm l := by
  induction l with
  | nil => exact .refl _
  | cons a l ih => exact (perm_insertSorted le a _).trans (ih.cons a)

theorem sortBy_of_pairwise {l : List α} (h : l.Pairwise fun a b => le a b = true) :
    sortBy le l = l := by
  induction l with
  | nil => rfl
  | cons a l ih =>
      rw [List.pairwise_cons] at h
      rw [sortBy, ih h.2]
      cases l with
      | nil => rfl
      | cons b l => rw [insertSorted, if_pos (h.1 b (by simp))]

theorem pairwise_sortBy (total : ∀ a b, le a b = true ∨ le b a = true)
    (trans : ∀ a b c, le a b = true → le b c = true → le a c = true) (l : List α) :
    (sortBy le l).Pairwise fun a b => le a b = true := by
  have insert {a : α} {l : List α} (hl : l.Pairwise fun a b => le a b = true) :
      (insertSorted le a l).Pairwise fun a b => le a b = true := by
    induction l with
    | nil => simp [insertSorted]
    | cons b l ih =>
        have hbl := List.pairwise_cons.mp hl
        rw [insertSorted]
        split
        · next hab =>
            refine List.pairwise_cons.mpr ⟨?_, hl⟩
            intro c hc
            rcases List.mem_cons.mp hc with rfl | hc
            · exact hab
            · exact trans a b c hab (hbl.1 c hc)
        · next hab =>
            refine List.pairwise_cons.mpr ⟨?_, ih hbl.2⟩
            intro c hc
            rcases List.mem_cons.mp ((perm_insertSorted le a l).mem_iff.mp hc) with rfl | hc
            · exact (total c b).resolve_left hab
            · exact hbl.1 c hc
  induction l with
  | nil => exact .nil
  | cons a l ih => exact insert ih

theorem map_sortBy {le' : β → β → Bool} {f : α → β} (h : ∀ a b, le' (f a) (f b) = le a b) (l : List α) :
    (sortBy le l).map f = sortBy le' (l.map f) := by
  have insert (a : α) (l : List α) :
      (insertSorted le a l).map f = insertSorted le' (f a) (l.map f) := by
    induction l with
    | nil => rfl
    | cons b l ih =>
        rw [List.map_cons, insertSorted, insertSorted, h a b]
        split
        · rfl
        · rw [List.map_cons, ih]
  induction l with
  | nil => rfl
  | cons a l ih => rw [sortBy, insert, ih, List.map_cons, sortBy]

theorem filter_sortBy {p : α → Bool} {l : List α} (h : (l.filter p).Pairwise fun a b => le a b = true) :
    (sortBy le l).filter p = l.filter p := by
  -- An element that counts is put in front of the first one that counts.
  have insert {a : α} {l : List α} (hl : p a = true → ∀ b ∈ l, p b = true → le a b = true) :
      (insertSorted le a l).filter p = (a :: l).filter p := by
    induction l with
    | nil => rfl
    | cons b l ih =>
        rw [insertSorted]
        split
        · rfl
        · next hab =>
            rw [List.filter_cons, ih fun ha c hc => hl ha c (List.mem_cons_of_mem b hc)]
            by_cases ha : p a = true
            · have hb : ¬p b = true := fun hb => hab (hl ha b List.mem_cons_self hb)
              simp [ha, hb]
            · simp [List.filter_cons, ha]
  induction l with
  | nil => rfl
  | cons a l ih =>
      have hl : (l.filter p).Pairwise fun a b => le a b = true :=
        h.sublist ((List.sublist_cons_self a l).filter p)
      rw [sortBy, insert, List.filter_cons, List.filter_cons, ih hl]
      intro ha b hb hpb
      rw [List.filter_cons, if_pos ha, List.pairwise_cons] at h
      exact h.1 b (List.mem_filter.mpr ⟨(perm_sortBy le l).mem_iff.mp hb, hpb⟩)

theorem flatMap_filter_of_nil {p : α → Bool} {F : α → List β} {l : List α}
    (h : ∀ a ∈ l, p a = false → F a = []) : (l.filter p).flatMap F = l.flatMap F := by
  induction l with
  | nil => rfl
  | cons a l ih =>
      have ih := ih fun b hb => h b (List.mem_cons_of_mem a hb)
      cases hp : p a with
      | true => simp [hp, ih]
      | false => simp [hp, ih, h a List.mem_cons_self hp]

theorem flatMap_sortBy {F : α → List β} {l : List α}
    (h : (l.filter fun a => !(F a).isEmpty).Pairwise fun a b => le a b = true) :
    (sortBy le l).flatMap F = l.flatMap F := by
  have hfilter (l : List α) : (l.filter fun a => !(F a).isEmpty).flatMap F = l.flatMap F :=
    flatMap_filter_of_nil fun a _ ha => by simpa using ha
  rw [← hfilter, filter_sortBy h, hfilter]

theorem textLe_iff (a b : List Char) : textLe a b = true ↔ a ≤ b := by
  -- The library describes the order of lists by `<`.
  rw [← not_lt]
  induction a generalizing b with
  | nil => simp [textLe]
  | cons c cs ih =>
      cases b with
      | nil => simp [textLe]
      | cons d ds =>
          have hdc : c < d ∨ c = d ∧ textLe cs ds = true ↔ ¬d < c ∧ ¬(d = c ∧ ds < cs) := by
            rw [ih]
            rcases lt_trichotomy c d with h | rfl | h
            · simp [h, h.ne', h.le]
            · simp
            · simp [h, h.ne', h.le]
          simpa [textLe, List.cons_lt_cons_iff] using hdc

namespace SortKey

def place (k : SortKey) : (Nat ×ₗ Nat) ×ₗ WithBot String := toLex (toLex k.rank, k.name)

theorem place_injective : Function.Injective place := by
  rintro ⟨rank, name⟩ ⟨rank', name'⟩ h
  obtain ⟨hrank, hname⟩ := Prod.mk.inj (toLex.injective h)
  cases toLex.injective hrank
  cases hname
  rfl

theorem nameLe_iff (a b : WithBot String) : nameLe a b = true ↔ a ≤ b := by
  cases a with
  | bot => exact iff_of_true rfl bot_le
  | coe a =>
      cases b with
      | bot => exact iff_of_false Bool.false_ne_true (WithBot.not_coe_le_bot a)
      | coe b =>
          rw [WithBot.coe_le_coe, String.le_iff_toList_le]
          exact textLe_iff a.toList b.toList

theorem le_iff (k l : SortKey) : k.le l = true ↔
    (k.rank.1 < l.rank.1 ∨ k.rank.1 = l.rank.1 ∧ k.rank.2 < l.rank.2) ∨
      k.rank = l.rank ∧ nameLe k.name l.name = true := by
  simp only [le, rankLt, Bool.or_eq_true, Bool.and_eq_true, decide_eq_true_eq]

theorem le_iff_place (k l : SortKey) : k.le l = true ↔ k.place ≤ l.place := by
  rw [le_iff, place, place, Prod.Lex.toLex_le_toLex, Prod.Lex.toLex_lt_toLex, toLex_inj]
  exact or_congr Iff.rfl (and_congr_right fun _ => nameLe_iff k.name l.name)

theorem le_refl (k : SortKey) : k.le k = true := (le_iff_place k k).mpr le_rfl

theorem le_total (k l : SortKey) : k.le l = true ∨ l.le k = true := by
  rw [le_iff_place, le_iff_place]
  exact LinearOrder.le_total k.place l.place

theorem le_trans (a b c : SortKey) (hab : a.le b = true) (hbc : b.le c = true) : a.le c = true := by
  rw [le_iff_place] at hab hbc ⊢
  exact hab.trans hbc

theorem le_antisymm (k l : SortKey) (hkl : k.le l = true) (hlk : l.le k = true) : k = l := by
  rw [le_iff_place] at hkl hlk
  exact place_injective (hkl.antisymm hlk)

end SortKey

end Reconcile
