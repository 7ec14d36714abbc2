import Reconcile.Proofs.Forest.Duplication
import Reconcile.Proofs.Forest.Grafting

namespace Reconcile.Forest

variable {f f' : Forest} {x y : Outline}

namespace Copied

theorem size_eq (h : Copied f f' x y) : f'.size = f.size + x.handles.length := by
  have hlen : y.handles.length = x.handles.length := by
    have hforget := congrArg (fun o => o.handles.length) h.forget
    simpa only [Outline.forget, Outline.handles_rename, List.length_map] using hforget
  have hnew := h.handles.length_eq
  rw [List.length_range'] at hnew
  have hle := h.size
  omega

theorem outline (h : Copied f f' x y) : f'.outline y.handle = .ok y :=
  outline_of_holds h.holds h.nodup

theorem parent (h : Copied f f' x y) : f'.parent y.handle = .ok none := by
  obtain ⟨n, hn, hp⟩ := h.holds.look_handle
  rw [parent_of_look hn, hp]

end Copied

theorem WellFormed.graft (hf : f.WellFormed) (hx : x.sound = true) {h : Handle}
    (he : f.graft x = .ok (f', h)) : f'.WellFormed := by
  obtain ⟨f₁, ρ, h₁, he₁, hgrafts, -⟩ := graftable_of_sound hx 0 hf.ranked
  cases he.symm.trans he₁
  exact hgrafts.ranked.wellFormed

/-- Every node of a well-formed forest can be copied into every other one. The copy has no parent and
says what the original says, locations included. Its nodes are new, with consecutive handles, and as
many as can be reached from the original. All other nodes are as they were, and the forest is still
well-formed. -/
theorem deep_copy {src f : Forest} (hs : src.WellFormed) (hf : f.WellFormed) {h : Handle}
    (hh : h < src.size) :
    ∃ x below f' y, src.outline h = .ok x ∧ src.descendants h = .ok below ∧ (h :: below).Nodup ∧
      f.graft x = .ok (f', y.handle) ∧ f'.outline y.handle = .ok y ∧
      f'.parent y.handle = .ok none ∧ y.forget = x.forget ∧ f'.same y.handle src h = .ok true ∧
      f'.size = f.size + (h :: below).length ∧
      y.handles.Perm (List.range' f.size (h :: below).length) ∧
      (∀ k < f.size, f'.look k = f.look k) ∧ f'.WellFormed := by
  obtain ⟨up, x, hx⟩ := hs.exists_unfolds (Array.getElem?_eq_getElem hh)
  obtain rfl := hx.handle
  obtain ⟨f', y, he, hcopy⟩ := copyable_of_sound hx.sound f
  have hsize := hcopy.size_eq
  have hperm := hcopy.handles
  rw [hsize, Nat.add_sub_cancel_left] at hperm
  refine ⟨x, x.descendants, f', y, hx.outline, ?_, hx.nodup, he, hcopy.outline, hcopy.parent,
    hcopy.forget, ?_, hsize, hperm, hcopy.old, hf.graft hx.sound he⟩
  · rw [descendants, hx.outline]
    rfl
  · rw [same, hcopy.outline, hx.outline]
    exact congrArg Except.ok (Outline.same_of_forget hcopy.forget)

def rivalHeaders : Forest :=
  let here : Location := { beginLine := 2, beginColumn := 0, endLine := 4, endColumn := 3 }
  ⟨#[{ kind := .plain .tree, children := [1] },
    { kind := .conflict .headers ⟨"left", "right"⟩ 2 3, parent := some root },
    { kind := .plain (.scope (.classNamed "A" none)), notes := ⟨["a"], some here⟩, parent := some 1,
      children := [4] },
    { kind := .plain (.scope (.classNamed "A" (some "S"))), parent := some 1 },
    { kind := .plain (.leaf (.constant "X" "1")), parent := some 2 }]⟩

theorem deep_copy_rivalHeaders : rivalHeaders.WellFormed ∧ (ofConstant "B" "2").WellFormed ∧
    ∃ x f' k, rivalHeaders.outline 1 = .ok x ∧ (ofConstant "B" "2").graft x = .ok (f', k) ∧
      f'.same k rivalHeaders 1 = .ok true ∧ f'.size = 2 + 4 ∧ f'.WellFormed := by
  have hs : rivalHeaders.WellFormed := by decide
  have hf : (ofConstant "B" "2").WellFormed := by decide
  have hh : 1 < rivalHeaders.size := by decide
  obtain ⟨x, below, f', y, hx, hbelow, -, he, -, -, -, hsame, hsize, -, -, hw⟩ := deep_copy hs hf hh
  cases hbelow
  exact ⟨hs, hf, x, f', y.handle, hx, he, hsame, hsize, hw⟩

end Reconcile.Forest
