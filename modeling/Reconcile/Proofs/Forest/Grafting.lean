import Reconcile.Forest.Graft
import Reconcile.Proofs.Forest.Wrapping

namespace Reconcile.Forest

open Function (update_self update_of_ne)

variable {f f' f'' : Forest} {ρ ρ' ρ'' : Handle → Nat} {b : Nat} {h p : Handle} {n : Node}

/-- Only nodes above rank `b` are new, and no other node but `p` is touched. -/
structure Grafts (f f' : Forest) (ρ ρ' : Handle → Nat) (b : Nat) (p : Handle) : Prop where
  ranked : Ranked f'.look ρ'
  size : f.size ≤ f'.size
  old : ∀ x < f.size, x ≠ p → f'.look x = f.look x
  same : ∀ x < f.size, ρ' x = ρ x
  above : ∀ x, f.size ≤ x → b < ρ' x

theorem Grafts.start (hf : Ranked f.look ρ) (b : Nat) (p : Handle) :
    Grafts f f ρ (fun x => if x < f.size then ρ x else b + 1) b p where
  ranked := by
    apply hf.spread Nat.one_pos
    intro x hx
    rw [if_pos, Nat.one_mul]
    apply Nat.lt_of_not_le
    intro hle
    exact hx (.of_none (look_none hle))
  size := Nat.le_refl _
  old := fun _ _ _ => rfl
  same := fun _ hx => if_pos hx
  above := fun x hx => by
    rw [if_neg (Nat.not_lt.mpr hx)]
    exact Nat.lt_succ_self b

theorem Grafts.trans (h : Grafts f f' ρ ρ' b p) (h' : Grafts f' f'' ρ' ρ'' b p) :
    Grafts f f'' ρ ρ'' b p where
  ranked := h'.ranked
  size := Nat.le_trans h.size h'.size
  old := by
    intro x hx hp
    rw [h'.old x (Nat.lt_of_lt_of_le hx h.size) hp, h.old x hx hp]
  same := by
    intro x hx
    rw [h'.same x (Nat.lt_of_lt_of_le hx h.size), h.same x hx]
  above := by
    intro x hx
    by_cases hlt : x < f'.size
    · rw [h'.same x hlt]
      exact h.above x hx
    · exact h'.above x (Nat.not_lt.mp hlt)

theorem Grafts.lower (h : Grafts f f' ρ ρ' (b + 1) p) : Grafts f f' ρ ρ' b p :=
  ⟨h.ranked, h.size, h.old, h.same, fun x hx => Nat.lt_of_succ_lt (h.above x hx)⟩

theorem Grafts.except (h : Grafts f f' ρ ρ' b f.size) (p : Handle) : Grafts f f' ρ ρ' b p :=
  ⟨h.ranked, h.size, fun x hx _ => h.old x hx (Nat.ne_of_lt hx), h.same, h.above⟩

structure CopyOf (f f' : Forest) (o : Outline) (h : Handle) : Prop where
  new : f.size ≤ h
  node : ∃ n, f'.look h = some n ∧ n.parent = none ∧ ∀ c, o.content? = some c → n.kind = .plain c

def Graftable (o : Outline) : Prop :=
  ∀ ⦃f : Forest⦄ ⦃ρ : Handle → Nat⦄ (b : Nat), Ranked f.look ρ →
    ∃ f' ρ' h, f.graft o = .ok (f', h) ∧ Grafts f f' ρ ρ' b f.size ∧ CopyOf f f' o h

theorem graftAll_grafts {os : List Outline} (hos : ∀ o ∈ os, Graftable o) (hf : Ranked f.look ρ)
    (hn : f.look p = some n) (hroom : n.kind.isContainer = true ∨ os = []) (hb : ρ p ≤ b) :
    ∃ f' ρ', f.graftAll p os = .ok f' ∧ Grafts f f' ρ ρ' b p ∧
      ∃ m, f'.look p = some m ∧ m.kind = n.kind ∧ m.parent = n.parent := by
  induction os generalizing f ρ n with
  | nil => exact ⟨f, _, rfl, .start hf b p, n, hn, rfl, rfl⟩
  | cons o os ih =>
      obtain ⟨f₁, ρ₁, c, he₁, h₁, hnew, m, hm, hparent, -⟩ := hos o (by simp) b hf
      have hroom : n.kind.isContainer = true := by simpa using hroom
      have hlt := look_lt hn
      have hn₁ : f₁.look p = some n := by rw [h₁.old p hlt (Nat.ne_of_lt hlt), hn]
      have hpc : p ≠ c := Nat.ne_of_lt (Nat.lt_of_lt_of_le hlt hnew)
      have hrank : ρ₁ p < ρ₁ c := by
        rw [h₁.same p hlt]
        exact Nat.lt_of_le_of_lt hb (h₁.above c hnew)
      have hroot : c ≠ Forest.root := by
        obtain ⟨r, hr, -⟩ := hf.root
        exact (Nat.ne_of_lt (Nat.lt_of_lt_of_le (look_lt hr) hnew)).symm
      obtain ⟨f₂, he₂, hs₂, hl₂⟩ := attach_spec hn₁ hroom hm hparent hpc
      have hf₂ : Ranked f₂.look ρ₁ :=
        hl₂ ▸ h₁.ranked.insert hn₁ hroom hm hparent hroot hrank (List.perm_append_singleton c n.children)
      have h₂ : Grafts f f₂ ρ ρ₁ b p := by
        refine ⟨hf₂, hs₂ ▸ h₁.size, ?_, h₁.same, h₁.above⟩
        intro x hx hxp
        have hxc : x ≠ c := Nat.ne_of_lt (Nat.lt_of_lt_of_le hx hnew)
        rw [hl₂, update_of_ne hxc, update_of_ne hxp, h₁.old x hx (Nat.ne_of_lt hx)]
      have hp₂ : f₂.look p = some { n with children := n.children ++ [c] } := by
        rw [hl₂, update_of_ne hpc, update_self]
      obtain ⟨f₃, ρ₃, he₃, h₃, hp₃⟩ := ih (fun o ho => hos o (by simp [ho])) hf₂ hp₂ (Or.inl hroom)
        (h₁.same p hlt ▸ hb)
      refine ⟨f₃, ρ₃, ?_, h₂.trans h₃, hp₃⟩
      simp only [graftAll, he₁, he₂, bind, Except.bind]
      exact he₃

theorem graftable_node (handle : Handle) (content : Content) (notes : Notes) {children : List Outline}
    (hroom : content.isContainer = true ∨ children = []) (hos : ∀ o ∈ children, Graftable o) :
    Graftable (.node handle content notes children) := by
  intro f ρ b hf
  obtain ⟨f₁, he₁, hs₁, hl₁⟩ := create_spec f (.plain content) notes
  have h₀ := Grafts.start hf b f.size
  have hf₁ := h₀.ranked.create (look_none (Nat.le_refl f.size)) content notes
  rw [← hl₁] at hf₁
  have h₁ : Grafts f f₁ ρ _ b f.size :=
    ⟨hf₁, by omega, fun x _ hx => by rw [hl₁, update_of_ne hx], h₀.same, h₀.above⟩
  have hnew : f₁.look f.size = some ⟨.plain content, notes, none, []⟩ := by rw [hl₁, update_self]
  obtain ⟨f₂, ρ₂, he₂, h₂, m, hm, hk, hp⟩ := graftAll_grafts hos hf₁ hnew hroom (b := b + 1) (by simp)
  refine ⟨f₂, ρ₂, f.size, ?_, h₁.trans h₂.lower, Nat.le_refl _, m, hm, hp, ?_⟩
  · simp only [graft, he₁, he₂, bind, Except.bind]
    rfl
  · intro c hc
    cases hc
    exact hk

theorem canBeSideOf_of_suits {o : Outline} {form : ConflictForm} {labels : Labels} {l r : Handle}
    (hk : ∀ c, o.content? = some c → n.kind = .plain c) (hs : form.suits o = true) :
    n.kind.canBeSideOf (.conflict form labels l r) = true := by
  cases o with
  | node h c notes cs =>
      rw [hk c rfl]
      exact hs
  | conflict => cases hs

theorem graftable_conflict (handle : Handle) (form : ConflictForm) (labels : Labels) (notes : Notes)
    {left right : Outline} (hl : Graftable left) (hr : Graftable right)
    (hsl : form.suits left = true) (hsr : form.suits right = true) :
    Graftable (.conflict handle form labels notes left right) := by
  intro f ρ b hf
  obtain ⟨f₁, ρ₁, l, he₁, h₁, hnew₁, n, hn, hnp, hnk⟩ := hl (b + 1) hf
  obtain ⟨f₂, ρ₂, r, he₂, h₂, hnew₂, m, hm, hmp, hmk⟩ := hr (b + 1) h₁.ranked
  have hlr : l < r := Nat.lt_of_lt_of_le (look_lt hn) hnew₂
  have hr₂ := look_lt hm
  have hl₂ := Nat.lt_trans hlr hr₂
  have hn₂ : f₂.look l = some n := by
    rw [h₂.old l (look_lt hn) (Nat.ne_of_lt (look_lt hn)), hn]
  -- The conflict is made after its sides, and its rank is just above the bound.
  have h₁₂ := h₁.trans (h₂.except f.size)
  have h₀ := h₁₂.lower.trans (Grafts.start h₂.ranked b f.size)
  obtain ⟨f₃, he₃, hs₃, hl₃⟩ := create_spec f₂ (.conflict form labels l r) notes
  obtain ⟨f₄, he₄, hs₄, hl₄⟩ := adopt_spec (look_created he₃ hn₂) hnp f₂.size
  have hm₄ : f₄.look r = some m := by
    rw [hl₄, update_of_ne (Nat.ne_of_lt hlr).symm, look_created he₃ hm]
  obtain ⟨f₅, he₅, hs₅, hl₅⟩ := adopt_spec hm₄ hmp f₂.size
  have hroot : ∀ x, f.size ≤ x → x ≠ Forest.root := by
    intro x hx
    obtain ⟨w, hw, -⟩ := hf.root
    exact (Nat.ne_of_lt (Nat.lt_of_lt_of_le (look_lt hw) hx)).symm
  have hnewr := Nat.le_trans h₁.size hnew₂
  have hf₅ := h₀.ranked.oppose (look_none (Nat.le_refl f₂.size)) hn₂ hm hnp hmp (Nat.ne_of_lt hlr)
    (hroot l hnew₁) (hroot r hnewr) (by simpa [hl₂] using h₁₂.above l hnew₁)
    (by simpa [hr₂] using h₁₂.above r hnewr) form labels notes (canBeSideOf_of_suits hnk hsl)
    (canBeSideOf_of_suits hmk hsr)
  rw [← hl₃, ← hl₄, ← hl₅] at hf₅
  have hnew : f₅.look f₂.size = some ⟨.conflict form labels l r, notes, none, []⟩ := by
    rw [hl₅, update_of_ne (Nat.ne_of_lt hr₂).symm, hl₄, update_of_ne (Nat.ne_of_lt hl₂).symm, hl₃,
      update_self]
  refine ⟨f₅, _, f₂.size, ?_, ⟨hf₅, ?_, ?_, h₀.same, h₀.above⟩, h₁₂.size, _, hnew, rfl, ?_⟩
  · simp only [graft, he₁, he₂, he₃, he₄, he₅, bind, Except.bind]
    rfl
  · have := h₁₂.size
    omega
  · intro x hx _
    rw [hl₅, update_of_ne (Nat.ne_of_lt (Nat.lt_of_lt_of_le hx hnewr)), hl₄,
      update_of_ne (Nat.ne_of_lt (Nat.lt_of_lt_of_le hx hnew₁)), hl₃,
      update_of_ne (Nat.ne_of_lt (Nat.lt_of_lt_of_le hx h₁₂.size)), h₁₂.old x hx (Nat.ne_of_lt hx)]
  · intro c hc
    cases hc

theorem graftable_of_sound {o : Outline} (ho : o.sound = true) : Graftable o := by
  induction o with
  | node h content notes children ih =>
      rw [Outline.sound_node] at ho
      exact graftable_node h content notes ho.1 fun o hm => ih o hm (ho.2 o hm)
  | conflict h form labels notes left right ihl ihr =>
      rw [Outline.sound_conflict] at ho
      exact graftable_conflict h form labels notes (ihl ho.2.1) (ihr ho.2.2) ho.1.1 ho.1.2

theorem WellFormed.attach_graft (hf : f.WellFormed) (hn : f.look p = some n)
    (hroom : n.kind.isContainer = true) {o : Outline} (ho : o.sound = true) {c : Handle} :
    ∃ f₁ h f₂, f.graft o = .ok (f₁, h) ∧ f₁.attach p h = .ok f₂ ∧ f₂.WellFormed ∧ Extends f f₂ c := by
  obtain ⟨f₁, ρ₁, h, he₁, h₁, hnew, m, hm, hparent, -⟩ :=
    graftable_of_sound ho (f.depth p) hf.ranked
  have hlt := look_lt hn
  have hold : ∀ x w, f.look x = some w → f₁.look x = some w := by
    intro x w hw
    rw [h₁.old x (look_lt hw) (Nat.ne_of_lt (look_lt hw)), hw]
  have hloose : Loose f₁.look h := by
    refine ⟨?_, ⟨m, hm⟩, ?_⟩
    · obtain ⟨r, hr, -⟩ := hf.root
      exact (Nat.ne_of_lt (Nat.lt_of_lt_of_le (look_lt hr) hnew)).symm
    · intro q hq
      rw [parentIn_of_look hm, hparent] at hq
      cases hq
  obtain ⟨f₂, he₂, h₂⟩ := attach_shifts h₁.ranked ⟨n, hold p n hn, hroom⟩ hloose (by
    rw [h₁.same p hlt]
    exact h₁.above h hnew)
  have hext : Extends f f₁ h := ⟨h₁.size, fun x w hw => ⟨w, hold x w hw, rfl, fun _ => rfl⟩⟩
  exact ⟨f₁, h, f₂, he₁, he₂, h₂.ranked.wellFormed, (hext.trans h₂.extended).of_new hnew c⟩

end Reconcile.Forest
