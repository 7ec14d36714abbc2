import Mathlib.Data.List.Basic

namespace Reconcile

theorem toList_pushn (s : String) (c : Char) (n : Nat) :
    (s.pushn c n).toList = s.toList ++ List.replicate n c := by
  rw [String.pushn_eq_repeat_push]
  induction n with
  | zero => simp [Nat.repeat]
  | succ n ih => simp [Nat.repeat, ih, List.replicate_succ']

variable {a b u v : List Char} {x y : Char}

/-- A text is cut in one way only at its first separator. -/
theorem cut_unique {p : Char → Prop} (ha : ∀ c ∈ a, ¬ p c) (hb : ∀ c ∈ b, ¬ p c) (hx : p x) (hy : p y)
    (h : a ++ x :: u = b ++ y :: v) : a = b ∧ x :: u = y :: v := by
  induction a generalizing b with
  | nil =>
      cases b with
      | nil => exact ⟨rfl, h⟩
      | cons d b => exact absurd ((List.cons.inj h).1 ▸ hx) (hb d List.mem_cons_self)
  | cons c a ih =>
      rw [List.forall_mem_cons] at ha
      cases b with
      | nil => exact absurd ((List.cons.inj h).1 ▸ hy) ha.1
      | cons d b =>
          rw [List.forall_mem_cons] at hb
          obtain ⟨rfl, hrest⟩ := List.cons.inj h
          obtain ⟨rfl, hcut⟩ := ih ha.2 hb.2 hrest
          exact ⟨rfl, hcut⟩

theorem cut_first_unique (ha : x ∉ a) (hb : x ∉ b) (h : a ++ x :: u = b ++ x :: v) : a = b ∧ u = v := by
  have hfree {w : List Char} (hw : x ∉ w) : ∀ c ∈ w, c ≠ x := fun c hc => ne_of_mem_of_not_mem hc hw
  obtain ⟨hab, huv⟩ := cut_unique (p := (· = x)) (hfree ha) (hfree hb) rfl rfl h
  exact ⟨hab, (List.cons.inj huv).2⟩

theorem cut_last_unique (hu : x ∉ u) (hv : x ∉ v) (h : a ++ x :: u = b ++ x :: v) : a = b ∧ u = v := by
  have hrev : u.reverse ++ x :: a.reverse = v.reverse ++ x :: b.reverse := by
    simpa using congrArg List.reverse h
  obtain ⟨huv, hab⟩ := cut_first_unique (mt List.mem_reverse.mp hu) (mt List.mem_reverse.mp hv) hrev
  exact ⟨List.reverse_injective hab, List.reverse_injective huv⟩

theorem not_mem_of_mem_splitOn (cs : List Char) : ∀ part ∈ cs.splitOn x, x ∉ part := by
  induction cs with
  | nil => simp
  | cons c cs ih =>
      rw [List.splitOn_cons_eq_if_modifyHead]
      split
      · simpa using ih
      · next hc =>
          obtain ⟨p, ps, hp⟩ := List.exists_cons_of_ne_nil (List.splitOn_ne_nil x cs)
          rw [hp, List.forall_mem_cons] at ih
          rw [hp, List.modifyHead_cons, List.forall_mem_cons, List.mem_cons, not_or]
          exact ⟨⟨fun he => hc (by simpa using he.symm), ih.1⟩, ih.2⟩

end Reconcile
