import Reconcile.Proofs.Merge.Encounter

namespace Reconcile.Merge

open Outline (plug)
open Function (update_of_ne update_self)

section

variable {f : Forest} {parent : Option Handle} {q h : Handle} {d : Content} {nq m : Notes} {s : Scope}
  {cs before after : List Outline}

theorem descendants_of_holds {x : Outline} (hx : x.Holds f.look parent) (hn : x.handles.Nodup) :
    f.descendants x.handle = .ok x.descendants := by
  simp only [Forest.descendants, Forest.outline_of_holds hx hn, bind, Except.bind]
  rfl

theorem supplant_patches (l : Leaf) (n : Notes) (hd : d.isContainer = true)
    (hx : (Outline.node q d nq (before ++ .node h (.scope s) m cs :: after)).Holds f.look parent)
    (hn : (Outline.node q d nq (before ++ .node h (.scope s) m cs :: after)).handles.Nodup) :
    ∃ f₁ f₂, f.anchor h = .ok h ∧
      f.descendants h = .ok (Outline.node h (.scope s) m cs).descendants ∧
      f.create (.plain (.leaf l)) n = (f₁, f.size) ∧ f₁.replace h f.size = .ok f₂ ∧
      f₂.size = f.size + 1 ∧ (Outline.node h (.scope s) m cs).Holds f₂.look none ∧
      Patches f f₂ parent [.node q d nq (before ++ .node h (.scope s) m cs :: after)]
        [.node q d nq (before ++ .node f.size (.leaf l) n [] :: after)] := by
  have hs : Fills f parent (.node q d nq before after) (.node h (.scope s) m cs) := fills hx hn
  have hq : f.look q = some ⟨.plain d, nq, parent,
    before.map Outline.handle ++ h :: after.map Outline.handle⟩ := hs.frame.1
  have hl : f.look h = some ⟨.plain (.scope s), m, some q, cs.map Outline.handle⟩ :=
    ((Outline.holds_node ..).mp hs.child).1
  have hqf : q ≠ f.size := Nat.ne_of_lt (Forest.look_lt hq)
  have hhf : h ≠ f.size := Nat.ne_of_lt (Forest.look_lt hl)
  have hqh : q ≠ h := hs.ne
  have hsib := hs.not_mem_siblings
  simp only [Frame.siblings, List.map_append, List.mem_append, not_or, Outline.handle_node] at hsib
  obtain ⟨f₁, he₁, hs₁, hl₁⟩ := Forest.create_spec f (.plain (.leaf l)) n
  have hq₁ := (Forest.look_old hl₁ q (Forest.look_lt hq)).trans hq
  have hh₁ := (Forest.look_old hl₁ h (Forest.look_lt hl)).trans hl
  have hnew₁ : f₁.look f.size = some ⟨.plain (.leaf l), n, none, []⟩ := by rw [hl₁, update_self]
  obtain ⟨f₂, he₂, hs₂, hl₂⟩ := Forest.replace_spec hh₁ rfl hq₁ hd rfl hsib.1 hsib.2 hnew₁ rfl hqh hqf
    (Ne.symm hhf)
  have old : ∀ k < f.size, k ≠ q → k ≠ h → f₂.look k = f.look k := by
    intro k hk hkq hkh
    rw [hl₂, update_of_ne (Nat.ne_of_lt hk), update_of_ne hkq, update_of_ne hkh,
      Forest.look_old hl₁ k hk]
  refine ⟨f₁, f₂, anchor_of_look hl rfl hq, descendants_of_holds hs.child hs.childNodup, he₁, he₂, by omega, ?_, ?_⟩
  · refine hs.child.reparent hs.childNodup hl ?_ fun k hk hkh => ?_
    · rw [hl₂, Outline.handle_node, update_of_ne hhf, update_of_ne (Ne.symm hqh), update_self]
    · refine old k (hs.child.lt_size hk) ?_ hkh
      rintro rfl
      exact hs.not_mem hk
  -- The frame around the scope is filled with the leaf.
  · have hleaf : f.size ∉ (Frame.node q d nq before after).handles := fun hm =>
      Nat.lt_irrefl _ (hs.lt_size _ hm)
    have hperm := (Frame.node q d nq before after).handles_fill (.node f.size (.leaf l) n [])
    refine ⟨?_, rfl, by omega, ?_, ?_, ?_⟩
    · simp only [List.mem_singleton, forall_eq]
      refine ((Frame.node q d nq before after).holds_fill _).mpr ⟨⟨?_, hs.siblings old⟩, ?_⟩
      · simp [hl₂, hqf, Frame.handle, Frame.nodeAround]
      · simp [hl₂, Frame.handle]
    · intro k hk hkx
      refine old k hk (fun he => hkx ?_) fun he => hkx ?_
      · simp [he]
      · simp [he]
    · rw [List.flatMap_singleton]
      change ((Frame.node q d nq before after).fill (.node f.size (.leaf l) n [])).handles.Nodup
      rw [hperm.nodup_iff, List.nodup_append']
      exact ⟨hs.nodup, by simp, by simpa using hleaf⟩
    · intro k hk
      rw [List.flatMap_singleton] at hk ⊢
      rcases List.mem_append.mp (hperm.mem_iff.mp hk) with hk | hk
      · left
        have hold := (Frame.node q d nq before after).handles_fill (.node h (.scope s) m cs)
        exact hold.mem_iff.mpr (List.mem_append_left _ hk)
      · rw [Outline.handles_node, List.flatMap_nil, List.mem_singleton] at hk
        exact Or.inr (Nat.le_of_eq hk.symm)

end

variable {o : Options} {P Q : Draft} {e : Event}

/-- A leaf is put where the outline `x` was, which becomes loose and is forgotten. -/
def Draft.supplant (P : Draft) (path : List Frame) (x : Outline) (l : Leaf) (n : Notes) : Draft :=
  { P with
    outline := plug path (.node P.next (.leaf l) n [])
    loose := P.loose ++ [x]
    index := (P.index.forget x.handles).insertAll (l.keys P.name) P.next
    next := P.next + 1 }

/-- What an event does when a later version replaces an earlier one. No header changes the name of its
scope, and no scope is dropped while it is being filled. -/
inductive Override (P : Draft) : Event → Draft → Prop
  | header (s : Scope) (n : Notes) (path : List Frame) (h : Handle) (t : Scope) (m : Notes)
      (cs : List Outline) (hu : P.scopeUnder? (s.qualify P.name) = some h)
      (hp : P.outline = plug path (.node h (.scope t) m cs)) (hne : t ≠ s)
      (hq : s.qualify (pathName "" path) = t.qualify (pathName "" path)) :
      Override P (.enter s n)
        { P with
          outline := plug path (.node h (.scope s) { m with comments := n.comments } cs)
          entered := (h, s.qualify P.name) :: P.entered }
  | version (l : Leaf) (n : Notes) (path : List Frame) (key : String) (h : Handle) (k : Leaf)
      (m : Notes) (cs : List Outline) (hu : P.previous? (l.keys P.name) = some (key, h))
      (hp : P.outline = plug path (.node h (.leaf k) m cs)) (hl : k.compatible l = false) :
      Override P (.declare l n) { P with outline := plug path (.node h (.leaf l) n cs) }
  | supplanted (l : Leaf) (n : Notes) (path : List Frame) (key : String) (q : Handle) (d : Content)
      (nq : Notes) (before after : List Outline) (h : Handle) (s : Scope) (m : Notes)
      (cs : List Outline) (hu : P.previous? (l.keys P.name) = some (key, h))
      (hp : P.outline = plug (.node q d nq before after :: path) (.node h (.scope s) m cs))
      (hen : ∀ x ∈ P.entered, x.1 ∉ (Outline.node h (.scope s) m cs).handles) :
      Override P (.declare l n)
        (P.supplant (.node q d nq before after :: path) (.node h (.scope s) m cs) l n)

/-- The merge does to a state what is done to the draft. -/
theorem Override.depicts {s : State} (hk : o.keep = .right) (hd : s.Depicts P) (hv : P.Standing)
    (ho : Override P e Q) : ∃ s', s.step o e = .ok s' ∧ s'.Depicts Q := by
  have hname := hd.scopeName hv
  cases ho with
  | header scope n path h t m cs hu hp hne hq =>
      have hunder := hd.scopeUnder? hv (scope.qualify P.name)
      obtain ⟨ho, hn⟩ := hd.part hv hp
      obtain ⟨f', he, hsize, hpatch⟩ := Forest.update_patches (g := fun k =>
        { k with
          kind := .plain (.scope scope)
          notes := { k.notes with comments := n.comments } }) ho hn rfl
      refine ⟨_, ?_, hd.patched (j := 0) hv hp hpatch (hsize.trans hd.size)⟩
      simp only [State.step, State.placeScope, hname, hunder, hu, bind, Except.bind, hd.kind path hp,
        Kind.compatible, Content.compatible, decide_eq_false hne, hk, he]
      rw [hd.index, hd.entered, hd.conflicts]
      rfl
  | version leaf n path key h k m cs hu hp hl =>
      have hprev := hd.previous? (leaf.keys P.name)
      obtain ⟨ho, hn⟩ := hd.part hv hp
      obtain ⟨f', he, hsize, hpatch⟩ := Forest.update_patches (g := fun k =>
        { k with kind := .plain (.leaf leaf), notes := n }) ho hn rfl
      refine ⟨_, ?_, hd.patched (j := 0) hv hp hpatch (hsize.trans hd.size)⟩
      simp only [State.step, State.placeLeaf, hname, hprev, hu, bind, Except.bind, hd.kind path hp,
        Kind.compatible, Content.compatible, hl, hk, Kind.isContainer, Content.isContainer, he]
      rw [hd.index, hd.entered, hd.conflicts]
      rfl
  | supplanted leaf n path key q d nq before after h scope m cs hu hp hen =>
      have hprev := hd.previous? (leaf.keys P.name)
      have hp' : P.outline = plug path
          (.node q d nq (before ++ .node h (.scope scope) m cs :: after)) := hp
      obtain ⟨ho, hn⟩ := hd.part hv hp'
      obtain ⟨f₁, f₂, hanchor, hdesc, hcreate, hreplace, hsize, hloose, hpatch⟩ :=
        supplant_patches leaf n (hv.container hp') ho hn
      rw [hd.size] at hcreate hreplace hsize hpatch
      have hd' : State.Depicts ⟨f₂, _, P.entered.map (·.1), P.conflicts⟩
          ⟨_, P.loose, (P.index.forget (Outline.node h (.scope scope) m cs).handles).insertAll
            (leaf.keys P.name) P.next, P.entered, P.conflicts, P.next + 1⟩ :=
        hd.patched hv hp' hpatch hsize
      refine ⟨_, ?_, { hd' with loose := ?_ }⟩
      · simp only [State.step, State.placeLeaf, State.supplantScope, hname, hprev, hu, bind,
          Except.bind, hd.kind _ hp, Kind.compatible, Content.compatible, hk, Kind.isContainer,
          Content.isContainer, hanchor, hdesc, hcreate, hreplace, hd.index, hd.entered, hd.conflicts]
        rfl
      · intro x hx
        rcases List.mem_append.mp hx with hx | hx
        · exact hd'.loose x hx
        · cases List.mem_singleton.mp hx
          exact hloose

end Reconcile.Merge
