import Reconcile.Proofs.Forest.Patch

namespace Reconcile

open Function (update_self update_of_ne)

def relist (source target : Option Handle) (moved : List Handle) (y : Handle)
    (children : List Handle) : List Handle :=
  if target = some y then children ++ moved
  else if source = some y then children.filter (· ∉ moved) else children

structure Moves (f f' : Forest) (source target : Option Handle) (xs xs' : List Outline) : Prop where
  size : f'.size = f.size
  holds : ∀ x ∈ xs', x.Holds f'.look target
  others : ∀ y ∉ xs.flatMap Outline.handles, f'.look y = (f.look y).map fun n =>
    { n with children := relist source target (xs.map Outline.handle) y n.children }

structure Moves.Ready (f : Forest) (source target : Option Handle) (xs : List Outline) : Prop where
  target : ∀ p ∈ target, p ∉ xs.flatMap Outline.handles ∧
    ∃ n, f.look p = some n ∧ n.kind.isContainer = true
  source : ∀ q ∈ source, q ∉ xs.flatMap Outline.handles ∧ ∃ n, f.look q = some n
  nodup : (xs.flatMap Outline.handles).Nodup

namespace Moves

variable {f f' f'' : Forest} {source target : Option Handle} {x x' o : Outline} {xs xs' : List Outline}

theorem relist_cons (h : Handle) (moved : List Handle) (y : Handle) (children : List Handle) :
    relist source target moved y (relist source target [h] y children) =
      relist source target (h :: moved) y children := by
  unfold relist
  split
  · simp
  · split
    · rw [List.filter_filter]
      congr
      funext k
      by_cases hk : k = h <;> simp [hk]
    · rfl

theorem look_eq (h : Moves f f' source target xs xs') {y : Handle}
    (hy : y ∉ xs.flatMap Outline.handles) (ht : target ≠ some y) (hs : source ≠ some y) :
    f'.look y = f.look y := by
  rw [h.others y hy]
  simp only [relist, if_neg ht, if_neg hs]
  exact Option.map_id'

theorem look_target {p : Handle} {n : Node} (h : Moves f f' source (some p) xs xs')
    (hp : p ∉ xs.flatMap Outline.handles) (hn : f.look p = some n) :
    f'.look p = some { n with children := n.children ++ xs.map Outline.handle } := by
  rw [h.others p hp, hn]
  simp [relist]

theorem look_source {q : Handle} {n : Node} (h : Moves f f' (some q) target xs xs')
    (hq : q ∉ xs.flatMap Outline.handles) (ht : target ≠ some q) (hn : f.look q = some n) :
    f'.look q = some { n with children := n.children.filter (· ∉ xs.map Outline.handle) } := by
  rw [h.others q hq, hn]
  simp [relist, ht]

theorem bystander {p : Option Handle} (h : Moves f f' source target xs xs') (ho : o.Holds f.look p)
    (hd : o.handles.Disjoint (xs.flatMap Outline.handles)) (ht : ∀ k ∈ target, k ∉ o.handles)
    (hs : ∀ k ∈ source, k ∉ o.handles) : o.Holds f'.look p := by
  refine ho.congr fun y hy => h.look_eq (hd hy) ?_ ?_
  · intro he
    exact ht y he hy
  · intro he
    exact hs y he hy

theorem refl (f : Forest) (source target : Option Handle) : Moves f f source target [] [] := by
  refine ⟨rfl, by simp, fun y _ => ?_⟩
  have hy : ∀ children, relist source target [] y children = children := by
    intro children
    unfold relist
    split
    · simp
    · split <;> simp
  simp only [List.map_nil, hy]
  exact Option.map_id'.symm

namespace Ready

theorem cons (hr : Ready f source target (x :: xs)) : Ready f source target [x] := by
  obtain ⟨ht, hs, hd⟩ := hr
  simp only [List.flatMap_cons, List.mem_append, not_or, List.nodup_append'] at ht hs hd
  refine ⟨?_, ?_, by simpa using hd.1⟩
  · intro p hp
    exact ⟨by simpa using (ht p hp).1.1, (ht p hp).2⟩
  · intro q hq
    exact ⟨by simpa using (hs q hq).1.1, (hs q hq).2⟩

theorem tail (hr : Ready f source target (x :: xs)) (h : Moves f f' source target [x] [x']) :
    Ready f' source target xs := by
  obtain ⟨ht, hs, hd⟩ := hr
  simp only [List.flatMap_cons, List.mem_append, not_or, List.nodup_append'] at ht hs hd
  refine ⟨?_, ?_, hd.2.1⟩
  · intro p hp
    obtain ⟨⟨hx, hxs⟩, n, hn, hk⟩ := ht p hp
    have hn' := h.others p (by simpa using hx)
    rw [hn] at hn'
    exact ⟨hxs, _, hn', hk⟩
  · intro q hq
    obtain ⟨⟨hx, hxs⟩, n, hn⟩ := hs q hq
    have hn' := h.others q (by simpa using hx)
    rw [hn] at hn'
    exact ⟨hxs, _, hn'⟩

end Ready

theorem cons (hr : Ready f source target (x :: xs)) (h : Moves f f' source target [x] [x'])
    (h' : Moves f' f'' source target xs xs') (hx : x'.handles = x.handles) :
    Moves f f'' source target (x :: xs) (x' :: xs') := by
  obtain ⟨ht, hs, hd⟩ := hr
  simp only [List.flatMap_cons, List.mem_append, not_or, List.nodup_append'] at ht hs hd
  refine ⟨h'.size.trans h.size, ?_, ?_⟩
  · intro y hy
    rcases List.mem_cons.mp hy with rfl | hy
    · apply h'.bystander (h.holds y (by simp))
      · rw [hx]
        exact hd.2.2
      · intro p hp
        rw [hx]
        exact (ht p hp).1.1
      · intro q hq
        rw [hx]
        exact (hs q hq).1.1
    · exact h'.holds y hy
  · intro y hy
    simp only [List.flatMap_cons, List.mem_append, not_or] at hy
    rw [h'.others y hy.2, h.others y (by simpa using hy.1), Option.map_map]
    congr 1
    funext n
    simp only [Function.comp_apply, List.map_cons, List.map_nil, relist_cons]

theorem foldlM {step : Forest → Handle → Except Fault Forest} (τ : Outline → Outline)
    (hτ : ∀ x ∈ xs, (τ x).handles = x.handles) (hr : Ready f source target xs)
    (hx : ∀ x ∈ xs, x.Holds f.look source)
    (hstep : ∀ {f x}, x ∈ xs → Ready f source target [x] → x.Holds f.look source →
      ∃ f', step f x.handle = .ok f' ∧ Moves f f' source target [x] [τ x]) :
    ∃ f', (xs.map Outline.handle).foldlM step f = .ok f' ∧ Moves f f' source target xs (xs.map τ) := by
  induction xs generalizing f with
  | nil => exact ⟨f, rfl, refl f source target⟩
  | cons x xs ih =>
      obtain ⟨f₁, he₁, hm₁⟩ := hstep (by simp) hr.cons (hx x (by simp))
      have hx₁ : ∀ y ∈ xs, y.Holds f₁.look source := by
        intro y hy
        obtain ⟨ht, hs, hd⟩ := hr
        simp only [List.flatMap_cons, List.mem_append, not_or, List.nodup_append'] at ht hs hd
        apply hm₁.bystander (hx y (by simp [hy]))
        · intro k hk hkx
          rw [List.flatMap_singleton] at hkx
          exact hd.2.2 hkx (Outline.handles_subset hy hk)
        · intro p hp hk
          exact (ht p hp).1.2 (Outline.handles_subset hy hk)
        · intro q hq hk
          exact (hs q hq).1.2 (Outline.handles_subset hy hk)
      obtain ⟨f', he, hm⟩ := ih (fun y hy => hτ y (by simp [hy])) (hr.tail hm₁) hx₁
        fun hy => hstep (List.mem_cons_of_mem _ hy)
      refine ⟨f', ?_, cons hr hm₁ hm (hτ x (by simp))⟩
      rw [List.map_cons, List.foldlM_cons, he₁]
      exact he

end Moves

namespace Forest

variable {f : Forest} {source : Option Handle} {p q : Handle} {x : Outline}

theorem attach_moves (hr : Moves.Ready f source (some p) [x]) (hx : x.Holds f.look source)
    (hne : source ≠ some p) :
    ∃ f', f.attach p x.handle = .ok f' ∧ Moves f f' source (some p) [x] [x] := by
  obtain ⟨ht, hs, hd⟩ := hr
  obtain ⟨hpx, n, hn, hk⟩ := ht p rfl
  obtain ⟨m, hm, hmp⟩ := hx.look_handle
  rw [List.flatMap_singleton] at hpx hd
  have hpx' : p ≠ x.handle := fun he => hpx (he ▸ x.handle_mem_handles)
  cases source with
  | none =>
      obtain ⟨f', he, hs, hl⟩ := attach_spec hn hk hm hmp hpx'
      refine ⟨f', he, hs, ?_, ?_⟩
      · simp only [List.mem_singleton, forall_eq]
        refine hx.reparent hd hm (by rw [hl, update_self]) ?_
        intro y hy hyx
        rw [hl, update_of_ne hyx, update_of_ne]
        rintro rfl
        exact hpx hy
      · intro y hy
        rw [List.flatMap_singleton] at hy
        have hyx : y ≠ x.handle := fun he => hy (he ▸ x.handle_mem_handles)
        rw [hl, update_of_ne hyx]
        by_cases hyp : y = p
        · subst hyp
          simp [relist, hn]
        · rw [update_of_ne hyp]
          simp [relist, Ne.symm hyp]
  | some q =>
      obtain ⟨hqx, k, hk'⟩ := hs q rfl
      rw [List.flatMap_singleton] at hqx
      have hqx' : q ≠ x.handle := fun he => hqx (he ▸ x.handle_mem_handles)
      have hqp : q ≠ p := fun he => hne (he ▸ rfl)
      obtain ⟨f', he, hs, hl⟩ := move_spec hn hk hm hmp hk' hqx' hpx' hqp
      refine ⟨f', he, hs, ?_, ?_⟩
      · simp only [List.mem_singleton, forall_eq]
        refine hx.reparent hd hm (by rw [hl, update_self]) ?_
        intro y hy hyx
        rw [hl, update_of_ne hyx, update_of_ne, update_of_ne]
        · rintro rfl
          exact hqx hy
        · rintro rfl
          exact hpx hy
      · intro y hy
        rw [List.flatMap_singleton] at hy
        have hyx : y ≠ x.handle := fun he => hy (he ▸ x.handle_mem_handles)
        rw [hl, update_of_ne hyx]
        by_cases hyp : y = p
        · subst hyp
          simp [relist, hn]
        · rw [update_of_ne hyp]
          by_cases hyq : y = q
          · subst hyq
            simp [relist, hk', Ne.symm hyp, bne, Bool.beq_eq_decide_eq]
          · rw [update_of_ne hyq]
            simp [relist, Ne.symm hyp, Ne.symm hyq]

theorem detach_moves (hr : Moves.Ready f (some q) none [x]) (hx : x.Holds f.look (some q)) :
    ∃ f', f.detach x.handle = .ok f' ∧ Moves f f' (some q) none [x] [x] := by
  obtain ⟨-, hs, hd⟩ := hr
  obtain ⟨hqx, k, hk⟩ := hs q rfl
  obtain ⟨m, hm, hmp⟩ := hx.look_handle
  rw [List.flatMap_singleton] at hqx hd
  have hqx' : q ≠ x.handle := fun he => hqx (he ▸ x.handle_mem_handles)
  obtain ⟨f', he, hs, hl⟩ := detach_spec hm hmp hk hqx'
  refine ⟨f', he, hs, ?_, ?_⟩
  · simp only [List.mem_singleton, forall_eq]
    refine hx.reparent hd hm (by rw [hl, update_of_ne (Ne.symm hqx'), update_self]) ?_
    intro y hy hyx
    rw [hl, update_of_ne, update_of_ne hyx]
    rintro rfl
    exact hqx hy
  · intro y hy
    rw [List.flatMap_singleton] at hy
    have hyx : y ≠ x.handle := fun he => hy (he ▸ x.handle_mem_handles)
    by_cases hyq : y = q
    · subst hyq
      rw [hl, update_self]
      simp [relist, hk, bne, Bool.beq_eq_decide_eq]
    · rw [hl, update_of_ne hyq, update_of_ne hyx]
      simp [relist, Ne.symm hyq]

theorem attachAll_moves {xs : List Outline} (hr : Moves.Ready f source (some p) xs)
    (hx : ∀ x ∈ xs, x.Holds f.look source) (hne : source ≠ some p) :
    ∃ f', f.attachAll p (xs.map Outline.handle) = .ok f' ∧ Moves f f' source (some p) xs xs := by
  obtain ⟨f', he, hm⟩ := Moves.foldlM id (fun _ _ => rfl) hr hx
    fun _ hr hx => attach_moves hr hx hne
  rw [List.map_id] at hm
  exact ⟨f', he, hm⟩

end Forest

end Reconcile
