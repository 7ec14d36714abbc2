import Reconcile.Forest.Graft
import Reconcile.Proofs.Forest.Move
import Reconcile.Proofs.Normal.Rework

namespace Reconcile.Forest

open Function (update_of_ne update_self)

variable {f f₁ f' : Forest} {x y : Outline} {parent : Option Handle} {h p k : Handle} {c : Content}
  {n : Notes} {cs os : List Outline}

/-- A copy that has no parent yet. -/
structure Copied (f f' : Forest) (x y : Outline) : Prop where
  holds : y.Holds f'.look none
  forget : y.forget = x.forget
  size : f.size ≤ f'.size
  handles : y.handles.Perm (List.range' f.size (f'.size - f.size))
  old : ∀ k < f.size, f'.look k = f.look k

def Copyable (x : Outline) : Prop := ∀ f : Forest, ∃ f' y, f.graft x = .ok (f', y.handle) ∧ Copied f f' x y

namespace Copied

theorem new (h : Copied f f' x y) (hk : k ∈ y.handles) : f.size ≤ k := by
  rw [h.handles.mem_iff, List.mem_range'_1] at hk
  exact hk.1

theorem nodup (h : Copied f f' x y) : y.handles.Nodup := h.handles.nodup_iff.mpr List.nodup_range'

theorem keeps (h : Copied f f' x y) {o : Outline} (ho : o.Holds f.look parent) : o.Holds f'.look parent :=
  ho.congr fun k hk => h.old k (ho.lt_size hk)

theorem attach (h : Copied f f₁ x y) (ho : (Outline.node p c n cs).Holds f.look parent)
    (hd : (Outline.node p c n cs).handles.Nodup) (hc : c.isContainer = true) :
    ∃ f', f₁.attach p y.handle = .ok f' ∧ f'.size = f₁.size ∧
      Patches f f' parent [.node p c n cs] [.node p c n (cs ++ [y])] := by
  obtain ⟨hp, hcs⟩ := (Outline.holds_node ..).mp ho
  have hlt := look_lt hp
  have hp₁ := (h.old p hlt).trans hp
  have hpy : p ∉ y.handles := fun hm => Nat.not_le.mpr hlt (h.new hm)
  have hready : Moves.Ready f₁ none (some p) [y] := by
    refine ⟨?_, by simp, by simpa using h.nodup⟩
    rintro _ ⟨⟩
    exact ⟨by simpa using hpy, _, hp₁, hc⟩
  obtain ⟨f', he, hm⟩ := attach_moves hready h.holds (by simp)
  have hnew : y.handles.Disjoint (Outline.node p c n cs).handles := fun k hk hk' =>
    Nat.not_le.mpr (ho.lt_size hk') (h.new hk)
  rw [Outline.handles_node] at hd hnew
  refine ⟨f', he, hm.size, ?_, rfl, by rw [hm.size]; exact h.size, ?_, ?_, ?_⟩
  · simp only [List.mem_singleton, forall_eq]
    rw [Outline.holds_node]
    refine ⟨?_, ?_⟩
    · rw [hm.look_target (by simpa using hpy) hp₁, List.map_append]
    · intro o hmem
      rcases List.mem_append.mp hmem with hmem | hmem
      · refine hm.bystander (h.keeps (hcs o hmem)) ?_ ?_ (by simp)
        · intro k hk hk'
          rw [List.flatMap_singleton] at hk'
          exact hnew hk' (List.mem_cons_of_mem _ (Outline.handles_subset hmem hk))
        · rintro _ ⟨⟩ hk
          exact (List.nodup_cons.mp hd).1 (Outline.handles_subset hmem hk)
      · exact hm.holds o hmem
  · intro k hk hn
    rw [hm.look_eq, h.old k hk]
    · rw [List.flatMap_singleton]
      exact fun hk' => Nat.not_le.mpr hk (h.new hk')
    · rintro ⟨⟩
      simp at hn
    · simp
  · simp only [List.flatMap_singleton, Outline.handles_node, List.flatMap_append, ← List.cons_append]
    rw [List.nodup_append']
    exact ⟨hd, h.nodup, fun k hk hk' => hnew hk' hk⟩
  · intro k hk
    simp only [List.flatMap_singleton, Outline.handles_node, List.flatMap_append, ← List.cons_append,
      List.mem_append] at hk ⊢
    exact hk.imp_right h.new

end Copied

theorem perm_new {hs hs' : List Handle} {a b d : Nat} (hab : a ≤ b) (hbd : b ≤ d)
    (h : hs.Perm (List.range' a (b - a))) (h' : hs'.Perm (List.range' b (d - b))) :
    (hs ++ hs').Perm (List.range' a (d - a)) := by
  have hsum : List.range' a (d - a) = List.range' a (b - a) ++ List.range' b (d - b) := by
    have hb : a + (b - a) = b := by omega
    have hd : d - a = (b - a) + (d - b) := by omega
    rw [hd, ← List.range'_append_1, hb]
  rw [hsum]
  exact h.append h'

theorem graftAll_patches (hos : ∀ o ∈ os, Copyable o) (ho : (Outline.node p c n cs).Holds f.look parent)
    (hd : (Outline.node p c n cs).handles.Nodup) (hc : c.isContainer = true ∨ os = []) :
    ∃ f' ys, f.graftAll p os = .ok f' ∧ ys.map Outline.forget = os.map Outline.forget ∧
      (ys.flatMap Outline.handles).Perm (List.range' f.size (f'.size - f.size)) ∧
      Patches f f' parent [.node p c n cs] [.node p c n (cs ++ ys)] := by
  induction os generalizing f cs with
  | nil =>
      refine ⟨f, [], rfl, rfl, by simp, ?_⟩
      rw [List.append_nil]
      refine .refl ?_ (by simpa using hd)
      simpa only [List.mem_singleton, forall_eq] using ho
  | cons o os ih =>
      have hroom : c.isContainer = true := by simpa using hc
      obtain ⟨f₁, y, he₁, h₁⟩ := hos o List.mem_cons_self f
      obtain ⟨f₂, he₂, hs₂, hp₂⟩ := h₁.attach ho hd hroom
      obtain ⟨f', ys, he, hforget, hperm, hp⟩ := ih (fun o ho => hos o (List.mem_cons_of_mem _ ho))
        (hp₂.holds _ (List.mem_singleton_self _)) (by simpa using hp₂.nodup) (Or.inl hroom)
      rw [List.append_assoc] at hp
      refine ⟨f', y :: ys, ?_, ?_, ?_, hp₂.trans hp⟩
      · simp only [graftAll, he₁, he₂, bind, Except.bind]
        exact he
      · rw [List.map_cons, List.map_cons, h₁.forget, hforget]
      · rw [List.flatMap_cons]
        rw [hs₂] at hperm
        exact perm_new h₁.size (hs₂ ▸ hp.size) h₁.handles hperm

theorem copyable_node (h : Handle) (c : Content) (n : Notes) (hc : c.isContainer = true ∨ os = [])
    (hos : ∀ o ∈ os, Copyable o) : Copyable (.node h c n os) := by
  intro f
  obtain ⟨f₁, he₁, hs₁, hl₁⟩ := create_spec f (.plain c) n
  have ho₁ : (Outline.node f.size c n []).Holds f₁.look none := by simp [hl₁]
  obtain ⟨f', ys, he, hforget, hperm, hp⟩ := graftAll_patches hos ho₁ (by simp) hc
  have hle : f.size ≤ f'.size := Nat.le_trans (by omega) hp.size
  refine ⟨f', .node f.size c n ys, ?_, hp.holds _ (List.mem_singleton_self _), ?_, hle, ?_, ?_⟩
  · simp only [graft, he₁, he, bind, Except.bind]
    rfl
  · rw [Outline.forget_node, Outline.forget_node, hforget]
  · rw [hs₁] at hperm
    have hlt := hp.size
    rw [hs₁] at hlt
    have hone : [f.size].Perm (List.range' f.size (f.size + 1 - f.size)) := by
      rw [Nat.add_sub_cancel_left]
      exact .refl _
    rw [Outline.handles_node]
    exact perm_new (Nat.le_succ _) hlt hone hperm
  · intro k hk
    rw [hp.frame k (by omega) (by simpa using Nat.ne_of_lt hk), look_old hl₁ k hk]

theorem copyable_conflict (h : Handle) (form : ConflictForm) (labels : Labels) (n : Notes)
    {l r : Outline} (hl : Copyable l) (hr : Copyable r) : Copyable (.conflict h form labels n l r) := by
  intro f
  obtain ⟨f₁, x, he₁, h₁⟩ := hl f
  obtain ⟨f₂, y, he₂, h₂⟩ := hr f₁
  obtain ⟨a, ha, hap⟩ := h₁.holds.look_handle
  obtain ⟨b, hb, hbp⟩ := h₂.holds.look_handle
  have hx₂ := h₂.keeps h₁.holds
  have ha₂ := (h₂.old _ (look_lt ha)).trans ha
  have hax := look_lt ha₂
  have hby := look_lt hb
  obtain ⟨f₃, he₃, hs₃, hl₃⟩ := create_spec f₂ (.conflict form labels x.handle y.handle) n
  obtain ⟨f₄, he₄, hs₄, hl₄⟩ := adopt_spec (look_created he₃ ha₂) hap f₂.size
  have hxy : y.handle ≠ x.handle :=
    (Nat.ne_of_lt (Nat.lt_of_lt_of_le (look_lt ha) (h₂.new y.handle_mem_handles))).symm
  have hb₄ : f₄.look y.handle = some b := by
    rw [hl₄, update_of_ne hxy, look_created he₃ hb]
  obtain ⟨f₅, he₅, hs₅, hl₅⟩ := adopt_spec hb₄ hbp f₂.size
  have hold : ∀ k < f₂.size, k ≠ x.handle → k ≠ y.handle → f₅.look k = f₂.look k := by
    intro k hk hkx hky
    rw [hl₅, update_of_ne hky, hl₄, update_of_ne hkx, look_old hl₃ k hk]
  have hdis : x.handles.Disjoint y.handles := fun k hk hk' =>
    Nat.not_le.mpr (h₁.holds.lt_size hk) (h₂.new hk')
  refine ⟨f₅, .conflict f₂.size form labels n x y, ?_, ?_, ?_, ?_, ?_, ?_⟩
  · simp only [graft, he₁, he₂, he₃, he₄, he₅, bind, Except.bind]
    rfl
  · rw [Outline.holds_conflict]
    refine ⟨?_, ?_, ?_⟩
    · rw [hl₅, update_of_ne (Nat.ne_of_lt hby).symm, hl₄, update_of_ne (Nat.ne_of_lt hax).symm, hl₃,
        update_self]
    · refine hx₂.reparent h₁.nodup ha₂ ?_ ?_
      · rw [hl₅, update_of_ne hxy.symm, hl₄, update_self]
      · intro k hk hkx
        refine hold k (hx₂.lt_size hk) hkx ?_
        rintro rfl
        exact hdis hk y.handle_mem_handles
    · refine h₂.holds.reparent h₂.nodup hb ?_ ?_
      · rw [hl₅, update_self]
      · intro k hk hky
        refine hold k (h₂.holds.lt_size hk) ?_ hky
        rintro rfl
        exact hdis x.handle_mem_handles hk
  · rw [Outline.forget_conflict, Outline.forget_conflict, h₁.forget, h₂.forget]
  · have := h₁.size
    have := h₂.size
    omega
  · have hsides := perm_new h₁.size h₂.size h₁.handles h₂.handles
    have hone : [f₂.size].Perm (List.range' f₂.size (f₅.size - f₂.size)) := by
      rw [hs₅, hs₄, hs₃, Nat.add_sub_cancel_left]
      exact .refl _
    rw [Outline.handles_conflict]
    refine (List.perm_append_singleton _ _).symm.trans ?_
    exact perm_new (Nat.le_trans h₁.size h₂.size) (by omega) hsides hone
  · intro k hk
    have hk₁ := Nat.lt_of_lt_of_le hk h₁.size
    rw [hold k (Nat.lt_of_lt_of_le hk₁ h₂.size), h₂.old k hk₁, h₁.old k hk]
    · rintro rfl
      exact Nat.not_le.mpr hk (h₁.new x.handle_mem_handles)
    · rintro rfl
      exact Nat.not_le.mpr hk₁ (h₂.new y.handle_mem_handles)

theorem copyable_of_sound (hx : x.sound = true) : Copyable x := by
  induction x with
  | node h c n os ih =>
      rw [Outline.sound_node] at hx
      exact copyable_node h c n hx.1 fun o ho => ih o ho (hx.2 o ho)
  | conflict h form labels n l r ihl ihr =>
      rw [Outline.sound_conflict] at hx
      exact copyable_conflict h form labels n (ihl hx.2.1) (ihr hx.2.2)

end Reconcile.Forest
