import Reconcile.Proofs.Merge.Integrity
import Reconcile.Report

namespace Reconcile

namespace Forest

variable {f f' f₁ : Forest} {h p c q x : Handle} {n m : Node}

theorem mem_descendants_of_parent {o : Outline} {parent : Option Handle} (hf : f.WellFormed)
    (ho : o.Holds f.look parent) (hx : parentIn f.look x = some o.handle) : x ∈ o.descendants := by
  rw [hf.ranked.links] at hx
  cases o with
  | node h c notes cs =>
      have hh := ((Outline.holds_node ..).mp ho).1
      rw [Outline.handle_node, belowIn_of_look hh, Node.below, Kind.sides, List.append_nil] at hx
      rw [Outline.descendants, Outline.descendantsOfAll_eq]
      exact Outline.map_handle_subset cs hx
  | conflict h form labels notes l r =>
      have hh := ((Outline.holds_conflict ..).mp ho).1
      rw [Outline.handle_conflict, belowIn_of_look hh, Node.below_conflict] at hx
      rw [Outline.descendants]
      rcases List.mem_pair.mp hx with rfl | rfl
      · simp
      · simp

theorem WellFormed.exists_qualifiedName (hf : f.WellFormed) (hn : f.look h = some n) :
    ∃ name, f.qualifiedName h = .ok name := by
  obtain ⟨up, hup⟩ := hf.exists_ancestors hn
  obtain ⟨ks, hks, -⟩ := kinds_of_known (hf.known_ancestors hup hn)
  simp only [qualifiedName, enclosingName, enclosingScopes, hup, hks, kind_of_look hn, bind, Except.bind,
    pure, Except.pure]
  split <;> exact ⟨_, rfl⟩

theorem anchor_of_listed (hl : Listed f.look h) : f.anchor h = .ok h := by
  obtain ⟨p, hp, m, hm, hroom⟩ := hl
  obtain ⟨n, hn, hp⟩ := Option.bind_eq_some_iff.mp hp
  have hh : m.kind.isHeaderConflict = false := by
    cases hk : m.kind with
    | plain => rfl
    | conflict => rw [hk] at hroom; cases hroom
  simp only [anchor, parent_of_look hn, hp, kind_of_look hm, hh, bind, Except.bind]
  rfl

theorem anchor_of_header (hk : parentIn f.look h = some p) (hm : f.look p = some m)
    (hh : m.kind.isHeaderConflict = true) : f.anchor h = .ok p := by
  obtain ⟨n, hn, hp⟩ := Option.bind_eq_some_iff.mp hk
  simp only [anchor, parent_of_look hn, hp, kind_of_look hm, hh, bind, Except.bind]
  rfl

theorem exists_anchor (hf : Filed f h) : ∃ a, f.anchor h = .ok a ∧ Listed f.look a ∧
    (a = h ∨ parentIn f.look h = some a) := by
  rcases hf.standing with hl | ⟨k, n, hk, hn, hh, hl⟩
  · exact ⟨h, anchor_of_listed hl, hl, Or.inl rfl⟩
  · exact ⟨k, anchor_of_header hk hn hh, hl, Or.inr hk⟩

theorem WellFormed.stands_of_listed (hf : f.WellFormed) (hl : Listed f.look c) :
    ∃ m p n before after, Stands f.look c m p n before after := by
  obtain ⟨p, hp, n, hn, hroom⟩ := hl
  obtain ⟨m, hm, hp⟩ := Option.bind_eq_some_iff.mp hp
  obtain ⟨before, after, hs⟩ := hf.exists_stands hm hp hn hroom
  exact ⟨m, p, n, before, after, hs⟩

theorem WellFormed.exists_enclosingConflict (hf : f.WellFormed) (hn : f.look h = some n) :
    ∃ r, f.enclosingConflict h = .ok r ∧ ∀ k, r = some k →
      ∃ m labels left right, f.look k = some m ∧ m.kind = .conflict .declarations labels left right := by
  simp only [enclosingConflict, parent_of_look hn, bind, Except.bind]
  split
  · exact ⟨none, rfl, by simp⟩
  · next side hside =>
      obtain ⟨m, hm, -⟩ := hf.ranked.exists_parent hn hside
      simp only [parent_of_look hm]
      split
      · exact ⟨none, rfl, by simp⟩
      · next owner howner =>
          obtain ⟨w, hw, -⟩ := hf.ranked.exists_parent hm howner
          simp only [kind_of_look hw]
          split
          · next labels left right hk =>
              refine ⟨_, rfl, ?_⟩
              intro k he
              split at he
              · cases he
                exact ⟨w, labels, left, right, hw, hk⟩
              · cases he
          · exact ⟨none, rfl, by simp⟩

end Forest

theorem Kind.shape_absorb (k k' : Kind) : (k.absorb k').shape = k.shape := by
  cases k with
  | conflict => rfl
  | plain c =>
      cases k' with
      | conflict => rfl
      | plain d => cases c <;> cases d <;> rfl

namespace Merge.State.Sane

open Forest

variable {s s' : State} {o : Options} {f' f₁ : Forest} {key : String} {keys : List String}
  {h previous : Handle} {n : Node} {notes : Notes}

theorem exists_scopeName (hs : s.Sane) : ∃ name, s.scopeName = .ok name := by
  obtain ⟨n, hn, -⟩ := hs.current
  simp only [scopeName, kind_of_look hn, bind, Except.bind]
  split
  · exact hs.forest.exists_qualifiedName hn
  · exact ⟨"", rfl⟩

theorem filed_of_recent (hs : s.Sane) (hm : h ∈ s.index.recent key) : Filed s.forest h :=
  hs.index (key, h) (Draft.mem_recent hm)

theorem filed_of_previous (hs : s.Sane) (hp : s.previous? keys = some (key, h)) :
    Filed s.forest h := by
  obtain ⟨k, -, hk⟩ := List.exists_of_findSome?_eq_some hp
  obtain ⟨h', hlast, he⟩ := Option.map_eq_some_iff.mp hk
  cases he
  exact hs.filed_of_recent (List.mem_of_mem_head? hlast)

theorem exists_scopeUnder (hs : s.Sane) (key : String) :
    ∃ r, s.scopeUnder? key = .ok r ∧ ∀ h, r = some h →
      Filed s.forest h ∧ ∃ n sc, s.forest.look h = some n ∧ n.kind = .plain (.scope sc) := by
  have hknown : ∀ h ∈ s.index.recent key, ∃ n, s.forest.look h = some n := by
    intro h hm
    obtain ⟨n, hn, -⟩ := (hs.filed_of_recent hm).declares
    exact ⟨n, hn⟩
  obtain ⟨ks, hks, hfst, hkind⟩ := kinds_of_known hknown
  refine ⟨_, by rw [scopeUnder?, hks]; rfl, ?_⟩
  intro h hh
  obtain ⟨⟨h', k⟩, hfind, rfl⟩ := Option.map_eq_some_iff.mp hh
  have hscope := List.find?_some hfind
  have hm := List.mem_of_find?_eq_some hfind
  have hfiled := hs.filed_of_recent (hfst ▸ List.mem_map_of_mem hm)
  obtain ⟨n, hn, hk⟩ := hkind _ hm
  obtain ⟨m, hmlook, hd⟩ := hfiled.declares
  cases hn.symm.trans hmlook
  refine ⟨hfiled, n, ?_⟩
  rcases hd with ⟨sc, hsc⟩ | ⟨l, hl⟩
  · exact ⟨sc, hn, hsc⟩
  · rw [← hk, hl] at hscope
    cases hscope

theorem exists_amend (hs : s.Sane) (hn : s.forest.look h = some n) {g : Node → Node}
    (hk : (g n).kind.shape = n.kind.shape) (hp : (g n).parent = n.parent)
    (hcs : (g n).children = n.children) :
    ∃ f', s.forest.update h g = .ok f' ∧ { s with forest := f' }.Sane ∧
      Extends s.forest f' s.forest.size := by
  obtain ⟨f', he, hw, hx⟩ := hs.forest.amend hn hk hp hcs
  exact ⟨f', he, hs.of_extends_new hw hx, hx⟩

theorem exists_place (hs : s.Sane) {content : Content}
    (hc : (∃ sc, content = .scope sc) ∨ ∃ l, content = .leaf l) (notes : Notes) (keys : List String) :
    ∃ s' h, s.place content notes keys = .ok (s', h) ∧ s'.Sane ∧
      ∃ n, s'.forest.look h = some n ∧ n.kind = .plain content := by
  obtain ⟨n, hn, hroom⟩ := hs.current
  obtain ⟨f', he, hw, hx, hnew⟩ := hs.forest.append hn hroom content notes
  refine ⟨{ s with forest := f', index := s.index.insertAll keys s.forest.size }, s.forest.size, ?_, ?_,
    _, hnew, rfl⟩
  · simp only [place, he, bind, Except.bind]
    rfl
  · refine hs.of_extends hw hx rfl ?_ fun _ hm => Or.inl hm
    intro x hm
    rcases mem_insertAll.mp hm with hm | ⟨-, hm⟩
    · exact hx.filed_of_new (Nat.le_refl _) (hs.index x hm)
    · rw [hm]
      refine ⟨⟨_, hnew, ?_⟩, Or.inl ⟨_, parentIn_of_look hnew, hx.room ⟨n, hn, hroom⟩⟩⟩
      rcases hc with ⟨sc, rfl⟩ | ⟨l, rfl⟩
      · exact Or.inl ⟨sc, rfl⟩
      · exact Or.inr ⟨l, rfl⟩

theorem record (hs : s.Sane) (o : Options) (key : String) {left right : Handle}
    (hl : left < s.forest.size) (hr : right < s.forest.size) : (s.record o key left right).Sane := by
  refine ⟨hs.forest, hs.entered, hs.index, ?_⟩
  intro c hc
  rcases List.mem_append.mp hc with hc | hc
  · exact hs.conflicts c hc
  · cases List.mem_singleton.mp hc
    exact ⟨hl, hr⟩

theorem exists_contestHeader (hs : s.Sane) (o : Options) (key : String) (hf : Filed s.forest previous)
    {sc : Scope} (hn : s.forest.look previous = some n) (hsc : n.kind = .plain (.scope sc))
    (scope : Scope) (notes : Notes) :
    ∃ s', s.contestHeader o key previous scope notes = .ok s' ∧ s'.Sane ∧
      ∃ n sc, s'.forest.look previous = some n ∧ n.kind = .plain (.scope sc) := by
  obtain ⟨f₁, he₁, hs₁, -⟩ := create_spec s.forest (.plain (.scope scope)) notes
  obtain ⟨hw₁, hx₁⟩ := hs.forest.create he₁ (c := s.forest.size)
  have hlt := look_lt hn
  rcases hf.standing with hl | ⟨k, m, hk, hm, hh, -⟩
  · obtain ⟨w, p, v, before, after, hst⟩ := hs.forest.stands_of_listed hl
    cases hn.symm.trans hst.child
    obtain ⟨f₂, k, he₂, hw₂, hx₂, hs₂, hparent, hconflict⟩ :=
      hs.forest.wrapHeaders hst (by rw [hsc]; rfl) he₁ o.labels
    refine ⟨State.record { s with forest := f₂ } o key previous s.forest.size, ?_, ?_,
      hx₂.scope hn hsc⟩
    · simp only [contestHeader, he₁, bind, Except.bind,
        anchor_of_listed (hx₁.listed (Nat.ne_of_lt hlt) hl), if_true, he₂]
      rfl
    · have hs' : State.Sane { s with forest := f₂ } := by
        refine hs.of_extends hw₂ hx₂ rfl ?_ fun _ hm => Or.inl hm
        intro x hx
        by_cases hxp : x.2 = previous
        · rw [hxp]
          exact ⟨hx₂.declares hf, Or.inr ⟨k, _, hparent, hconflict, rfl, p, parentIn_of_look hconflict,
            hx₂.room ⟨v, hst.container, hst.room⟩⟩⟩
        · refine hx₂.filed (hs.index x hx) hxp ?_
          intro m hm hh
          cases hn.symm.trans hm
          rw [hsc] at hh
          cases hh
      exact hs'.record o key (Nat.lt_of_lt_of_le hlt hx₂.size) (show s.forest.size < f₂.size by omega)
  · -- A scope that takes part in a conflict of headers already is left where it is.
    have hkne : k ≠ previous := by
      obtain ⟨n', hn', hp⟩ := Option.bind_eq_some_iff.mp hk
      exact hs.forest.ranked.ne_parent hn' hp
    have hk₁ := hx₁.parent (Nat.ne_of_lt hlt) hk
    refine ⟨State.record { s with forest := f₁ } o key previous s.forest.size, ?_, ?_,
      hx₁.scope hn hsc⟩
    · simp only [contestHeader, he₁, bind, Except.bind,
        anchor_of_header hk₁ (look_created he₁ hm) hh, if_neg hkne]
      rfl
    · exact (hs.of_extends_new hw₁ hx₁).record o key (Nat.lt_of_lt_of_le hlt hx₁.size)
        (show s.forest.size < f₁.size by omega)

theorem exists_placeScope (hs : s.Sane) (o : Options) (scope : Scope) (notes : Notes) :
    ∃ s' h, s.placeScope o scope notes = .ok (s', h) ∧ s'.Sane ∧
      ∃ n sc, s'.forest.look h = some n ∧ n.kind = .plain (.scope sc) := by
  obtain ⟨name, hname⟩ := hs.exists_scopeName
  obtain ⟨r, hr, hscope⟩ := hs.exists_scopeUnder (scope.qualify name)
  simp only [placeScope, hname, hr, bind, Except.bind]
  cases r with
  | none =>
      obtain ⟨s', h, he, hs', n, hn, hk⟩ :=
        hs.exists_place (Or.inl ⟨scope, rfl⟩) notes [scope.qualify name]
      exact ⟨s', h, he, hs', n, scope, hn, hk⟩
  | some previous =>
      obtain ⟨hf, n, sc, hn, hk⟩ := hscope previous rfl
      simp only [kind_of_look hn]
      split
      · obtain ⟨f', he, hs', hx⟩ := hs.exists_amend hn
          (g := fun n => { n with notes := n.notes.addComments notes.comments }) rfl rfl rfl
        refine ⟨{ s with forest := f' }, previous, ?_, hs', hx.scope hn hk⟩
        rw [addComments, he]
        rfl
      · cases hkeep : o.keep with
        | left => exact ⟨s, previous, rfl, hs, n, sc, hn, hk⟩
        | right =>
            obtain ⟨f', he, hs', hx⟩ := hs.exists_amend hn
              (g := fun n => { n with
                kind := .plain (.scope scope)
                notes := { n.notes with comments := notes.comments } }) (by rw [hk]; rfl) rfl rfl
            refine ⟨{ s with forest := f' }, previous, ?_, hs', hx.scope hn hk⟩
            simp only [he]
            rfl
        | both =>
            obtain ⟨s', he, hs', hscope'⟩ :=
              hs.exists_contestHeader o (scope.qualify name) hf hn hk scope notes
            refine ⟨s', previous, ?_, hs', hscope'⟩
            simp only [he]
            rfl

theorem exists_supplantScope (hs : s.Sane) (hf : Filed s.forest previous) (leaf : Leaf) (notes : Notes)
    (keys : List String) : ∃ s', s.supplantScope previous leaf notes keys = .ok s' ∧ s'.Sane := by
  obtain ⟨a, ha, hl, -⟩ := exists_anchor hf
  obtain ⟨m, p, n, before, after, hst⟩ := hs.forest.stands_of_listed hl
  obtain ⟨out, hout, hhandle, hholds, -⟩ := hs.forest.exists_outline hst.child
  obtain ⟨f₁, he₁, -, -⟩ := create_spec s.forest (.plain (.leaf leaf)) notes
  obtain ⟨f₂, he₂, hw₂, hx₂, hnew⟩ := hs.forest.replace_leaf hst he₁
  refine ⟨{ s with
    forest := f₂
    index := (s.index.forget (a :: out.descendants)).insertAll keys s.forest.size }, ?_, ?_⟩
  · simp only [supplantScope, ha, Forest.descendants, hout, he₁, he₂, bind, Except.bind]
    rfl
  · refine hs.of_extends hw₂ hx₂ rfl ?_ fun _ hm => Or.inl hm
    intro x hm
    rcases mem_insertAll.mp hm with hm | ⟨-, hm⟩
    · -- What has been dropped with the scope is no longer in the index.
      obtain ⟨hm, hkept⟩ := List.mem_filter.mp hm
      have hkept : x.2 ∉ a :: out.descendants := by simpa using hkept
      rw [List.mem_cons, not_or] at hkept
      refine hx₂.filed (hs.index x hm) hkept.1 ?_
      intro _ _ _ hparent
      exact absurd (mem_descendants_of_parent hs.forest hholds (hhandle ▸ hparent)) hkept.2
    · rw [hm]
      refine ⟨⟨_, hnew, Or.inr ⟨leaf, rfl⟩⟩, Or.inl ⟨p, parentIn_of_look hnew, ?_⟩⟩
      exact hx₂.room ⟨n, hst.container, hst.room⟩

theorem exists_oppose (hs : s.Sane) {k left right : Handle} {m : Node} {labels : Labels} {leaf : Leaf}
    (hm : s.forest.look k = some m) (hk : m.kind = .conflict .declarations labels left right)
    (hn : s.forest.look h = some n) (hleaf : n.kind = .plain (.leaf leaf)) (hp : n.parent = none) :
    ∃ f', s.forest.rightSide k = .ok right ∧ s.forest.attach right h = .ok f' ∧
      { s with forest := f' }.Sane ∧ s.forest.size ≤ f'.size := by
  have hside : right ∈ m.kind.sides := by simp [hk, Kind.sides]
  obtain ⟨w, hw, -⟩ := Option.bind_eq_some_iff.mp (hs.forest.ranked.parentIn_side hm hside)
  have hsuits := hs.forest.ranked.suits k m right w hm hside hw
  rw [hk] at hsuits
  obtain ⟨f', he, hf', hx⟩ := hs.forest.attach_leaf ⟨w, hw, Kind.isContainer_of_side hsuits⟩ hn hleaf hp
  refine ⟨f', ?_, he, ?_, hx.size⟩
  · rw [rightSide, kind_of_look hm, hk]
    rfl
  · refine hs.of_extends hf' hx rfl ?_ fun _ hm => Or.inl hm
    intro x hm
    refine hx.filed (hs.index x hm) ?_ ?_
    · -- The leaf has no parent, so the index does not refer to it.
      rintro rfl
      rcases (hs.index x hm).standing with ⟨p, hparent, -⟩ | ⟨p, -, hparent, -⟩ <;>
        rw [parentIn_of_look hn, hp] at hparent <;> cases hparent
    · intro w hw hh
      cases hn.symm.trans hw
      rw [hleaf] at hh
      cases hh

theorem exists_contestLeaf (hs : s.Sane) (o : Options) (key : String) (hf : Filed s.forest previous)
    (leaf : Leaf) (notes : Notes) :
    ∃ s', s.contestLeaf o key previous leaf notes = .ok s' ∧ s'.Sane := by
  obtain ⟨f₁, he₁, hs₁, hl₁⟩ := create_spec s.forest (.plain (.leaf leaf)) notes
  obtain ⟨hw₁, hx₁⟩ := hs.forest.create he₁ (c := s.forest.size)
  have hsane₁ := hs.of_extends_new hw₁ hx₁
  have hf₁ := hx₁.filed_of_new (Nat.le_refl _) hf
  have hnew₁ : f₁.look s.forest.size = some ⟨.plain (.leaf leaf), notes, none, []⟩ := by
    rw [hl₁, Function.update_self]
  obtain ⟨n, hn, -⟩ := hf₁.declares
  have hlt := look_lt hn
  obtain ⟨r, hr, hconflict⟩ := hw₁.exists_enclosingConflict hn
  simp only [contestLeaf, he₁, hr, bind, Except.bind]
  cases r with
  | some k =>
      obtain ⟨m, labels, left, right, hm, hk⟩ := hconflict k rfl
      obtain ⟨f₂, hright, he₂, hs₂, hsize⟩ := hsane₁.exists_oppose hm hk hnew₁ rfl rfl
      refine ⟨State.record { s with forest := f₂ } o key previous s.forest.size, ?_, ?_⟩
      · simp only [pure, Except.pure]
        rw [hright]
        simp only [he₂]
      · exact hs₂.record o key (Nat.lt_of_lt_of_le hlt hsize)
          (show s.forest.size < f₂.size from Nat.lt_of_lt_of_le (look_lt hnew₁) hsize)
  | none =>
      obtain ⟨a, ha, hl, -⟩ := exists_anchor hf₁
      obtain ⟨m, p, w, before, after, hst⟩ := hw₁.stands_of_listed hl
      obtain ⟨f₂, k, left, right, he₂, hw₂, hx₂, hk, hleft, hparent⟩ :=
        hw₁.wrapDeclarations hst o.labels
      have hlisted : Listed f₂.look a := ⟨left, hparent, _, hleft, rfl⟩
      have hsane₂ : State.Sane { s with forest := f₂ } := by
        refine hsane₁.of_extends hw₂ hx₂ rfl ?_ fun _ hm => Or.inl hm
        intro x hm
        by_cases hxa : x.2 = a
        · exact ⟨hx₂.declares (hsane₁.index x hm), Or.inl (hxa ▸ hlisted)⟩
        · exact hx₂.filed (hsane₁.index x hm) hxa fun _ _ _ _ => hlisted
      have hne : s.forest.size ≠ a := by
        rintro rfl
        cases hst.child.symm.trans hnew₁
        cases hst.parent
      obtain ⟨v, hv, hshape, hvp⟩ := hx₂.node _ _ hnew₁
      obtain ⟨l, hvl⟩ := Kind.leaf_of_shape hshape
      obtain ⟨f₃, hright, he₃, hs₃, hsize⟩ := hsane₂.exists_oppose hk rfl hv hvl (hvp hne)
      have hsize : f₁.size ≤ f₃.size := Nat.le_trans hx₂.size hsize
      refine ⟨State.record { s with forest := f₃ } o key previous s.forest.size, ?_, ?_⟩
      · simp only [ha, he₂]
        rw [hright]
        simp only [he₃]
        rfl
      · exact hs₃.record o key (Nat.lt_of_lt_of_le hlt hsize)
          (show s.forest.size < f₃.size from Nat.lt_of_lt_of_le (look_lt hnew₁) hsize)

theorem exists_placeLeaf (hs : s.Sane) (o : Options) (leaf : Leaf) (notes : Notes) :
    ∃ s', s.placeLeaf o leaf notes = .ok s' ∧ s'.Sane := by
  obtain ⟨name, hname⟩ := hs.exists_scopeName
  simp only [placeLeaf, hname, bind, Except.bind]
  cases hp : s.previous? (leaf.keys name) with
  | none =>
      obtain ⟨s', h, he, hs', -⟩ := hs.exists_place (Or.inr ⟨leaf, rfl⟩) notes (leaf.keys name)
      exact ⟨s', by simp only [he]; rfl, hs'⟩
  | some found =>
      obtain ⟨key, previous⟩ := found
      have hf := hs.filed_of_previous hp
      obtain ⟨n, hn, hd⟩ := hf.declares
      simp only [kind_of_look hn]
      split
      · obtain ⟨f', he, hs', -⟩ := hs.exists_amend hn (g := fun n => { n with
          kind := n.kind.absorb (.plain (.leaf leaf))
          notes := n.notes.addComments notes.comments }) (Kind.shape_absorb ..) rfl rfl
        refine ⟨{ s with forest := f' }, ?_, hs'⟩
        rw [Forest.absorb, he]
        rfl
      · cases hkeep : o.keep with
        | left => exact ⟨s, rfl, hs⟩
        | right =>
            simp only
            split
            · exact hs.exists_supplantScope hf leaf notes (leaf.keys name)
            · next hroom =>
                obtain ⟨l, hl⟩ : ∃ l, n.kind = .plain (.leaf l) := by
                  rcases hd with ⟨sc, hsc⟩ | hl
                  · rw [hsc] at hroom
                    exact absurd rfl hroom
                  · exact hl
                obtain ⟨f', he, hs', -⟩ := hs.exists_amend hn
                  (g := fun n => { n with kind := .plain (.leaf leaf), notes }) (by rw [hl]; rfl) rfl rfl
                refine ⟨{ s with forest := f' }, ?_, hs'⟩
                simp only [he]
                rfl
        | both => exact hs.exists_contestLeaf o key hf leaf notes

theorem exists_carry (hs : s.Sane) {conflict : Outline} (hc : conflict.sound = true) :
    ∃ s', s.carry conflict = .ok s' ∧ s'.Sane := by
  obtain ⟨n, hn, hroom⟩ := hs.current
  obtain ⟨f₁, h, f₂, he₁, he₂, hw, hx⟩ := hs.forest.attach_graft hn hroom hc (c := s.forest.size)
  refine ⟨{ s with forest := f₂ }, ?_, hs.of_extends_new hw hx⟩
  simp only [carry, he₁, he₂, bind, Except.bind]
  rfl

end Merge.State.Sane

/-- What an event carries over can be copied. -/
def Merge.Event.Sound : Merge.Event → Prop
  | .carry conflict => conflict.sound = true
  | _ => True

namespace Merge.State

open Forest

variable {s : State} {o : Options}

/-- Every event of a sound tree is taken in, and the output stays well-formed. -/
theorem Sane.exists_step (hs : s.Sane) (o : Options) {e : Event} (he : e.Sound) :
    ∃ s', s.step o e = .ok s' ∧ s'.Sane := by
  cases e with
  | enter scope notes =>
      obtain ⟨s', h, hplace, hs', hscope⟩ := hs.exists_placeScope o scope notes
      refine ⟨{ s' with entered := h :: s'.entered }, ?_, hs'.forest, ?_, hs'.index, hs'.conflicts⟩
      · simp only [step, hplace, bind, Except.bind]
        rfl
      · intro k hk
        rcases List.mem_cons.mp hk with rfl | hk
        · exact hscope
        · exact hs'.entered k hk
  | leave =>
      refine ⟨{ s with entered := s.entered.tail }, rfl, hs.forest, ?_, hs.index, hs.conflicts⟩
      intro k hk
      exact hs.entered k (List.mem_of_mem_tail hk)
  | declare leaf notes => exact hs.exists_placeLeaf o leaf notes
  | remark comments =>
      obtain ⟨n, hn, -⟩ := hs.current
      obtain ⟨f', hupdate, hs', -⟩ := hs.exists_amend hn
        (g := fun n => { n with notes := n.notes.addComments comments }) rfl rfl rfl
      refine ⟨{ s with forest := f' }, ?_, hs'⟩
      simp only [step, addComments, hupdate, bind, Except.bind]
      rfl
  | carry conflict => exact hs.exists_carry he

theorem Sane.exists_run (hs : s.Sane) (o : Options) {events : List Event}
    (he : ∀ e ∈ events, e.Sound) : ∃ s', s.run o events = .ok s' ∧ s'.Sane :=
  foldlM_invariant (fun _ hs e hm => hs.exists_step o (he e hm)) hs

end Merge.State

theorem Outline.sound_events {o : Outline} (ho : o.sound = true) : ∀ e ∈ o.events, e.Sound := by
  induction o with
  | node h content notes children ih =>
      have hall : ∀ e ∈ eventsOfAll children, e.Sound := by
        intro e he
        rw [eventsOfAll_eq, List.mem_flatMap] at he
        obtain ⟨x, hx, he⟩ := he
        exact ih x hx (((sound_node ..).mp ho).2 x hx) e he
      intro e he
      cases content with
      | scope =>
          rcases List.mem_append.mp he with he | he
          · rcases List.mem_cons.mp he with rfl | he
            · trivial
            · exact hall e he
          · cases List.mem_singleton.mp he
            trivial
      | leaf =>
          cases List.mem_singleton.mp he
          trivial
      | tree | visibilityGroup | group =>
          rcases List.mem_cons.mp he with rfl | he
          · trivial
          · exact hall e he
  | conflict h form labels notes left right =>
      intro e he
      cases List.mem_singleton.mp he
      exact ho

namespace Merge

variable {s : State} {t : Forest}

theorem State.Sane.exists_merge (hs : s.Sane) (o : Options) (ht : t.WellFormed) :
    ∃ s', s.merge o t = .ok s' ∧ s'.Sane := by
  obtain ⟨out, hout⟩ := ht.exists_shows
  rw [State.merge, hout.outline]
  exact hs.exists_run o (Outline.sound_events hout.sound)

theorem mergeAll_wellFormed (o : Options) {trees : List Forest} (ht : ∀ t ∈ trees, t.WellFormed) :
    ∃ out, mergeAll o trees = .ok out ∧ out.forest.WellFormed ∧
      ∀ c ∈ out.conflicts, c.left < out.forest.size ∧ c.right < out.forest.size := by
  obtain ⟨s, hs, hsane⟩ := foldlM_invariant
    (fun s hs t hm => State.Sane.exists_merge hs o (ht t hm)) State.Sane.empty
  obtain ⟨f, hf, hw, hsize⟩ := hsane.forest.coalesce
  refine ⟨⟨f, s.conflicts⟩, ?_, hw, ?_⟩
  · simp only [mergeAll, hs, hf, bind, Except.bind]
    rfl
  · intro c hc
    have hold := hsane.conflicts c hc
    exact ⟨Nat.lt_of_lt_of_le hold.1 hsize, Nat.lt_of_lt_of_le hold.2 hsize⟩

theorem exists_reports (style : Style) {out : Output} (hf : out.forest.WellFormed)
    (hc : ∀ c ∈ out.conflicts, c.left < out.forest.size ∧ c.right < out.forest.size) :
    ∃ reports, Report.ofOutput style out = .ok reports := by
  have hnode (h : Handle) (hh : h < out.forest.size) :
      ∃ text, out.forest.renderNode h style = .ok text := by
    obtain ⟨n, hn⟩ : ∃ n, out.forest.look h = some n := ⟨_, Array.getElem?_eq_getElem hh⟩
    obtain ⟨o, ho, -⟩ := hf.exists_outline hn
    exact ⟨_, by rw [Forest.renderNode, ho]; rfl⟩
  refine exists_mapM fun c hm => ?_
  obtain ⟨left, hleft⟩ := hnode c.left (hc c hm).1
  obtain ⟨right, hright⟩ := hnode c.right (hc c hm).2
  exact ⟨_, by rw [Report.ofConflict, hleft, hright]; rfl⟩

/-- Merging well-formed trees gives a well-formed tree, and so do coalescing, every pass of
normalization and normalization as a whole. None of them fails, and all conflicts that a merge
records are about nodes of its output. -/
theorem wellFormed_preserved (o : Options) {trees : List Forest} (ht : ∀ t ∈ trees, t.WellFormed)
    {f : Forest} (hf : f.WellFormed) :
    (∃ out, mergeAll o trees = .ok out ∧ out.forest.WellFormed ∧
      ∀ c ∈ out.conflicts, c.left < out.forest.size ∧ c.right < out.forest.size) ∧
    (∃ g, f.coalesce = .ok g ∧ g.WellFormed) ∧
    (∀ p : Pass, ∃ g, p.run f = .ok g ∧ g.WellFormed) ∧
    ∃ g, f.normalize = .ok g ∧ g.WellFormed := by
  obtain ⟨g, hg, hw, -⟩ := hf.coalesce
  exact ⟨mergeAll_wellFormed o ht, ⟨g, hg, hw⟩, hf.run, hf.runPasses Pass.canonical⟩

theorem wellFormed_preserved_dropped :
    (∀ t ∈ [Forest.assorted, Forest.ofConstant "A" "1"], t.WellFormed) ∧ Forest.assorted.WellFormed ∧
    (∃ out, mergeAll { keep := .right } [Forest.assorted, Forest.ofConstant "A" "1"] = .ok out ∧
      out.forest.WellFormed ∧
      ∀ c ∈ out.conflicts, c.left < out.forest.size ∧ c.right < out.forest.size) ∧
    (∃ g, Forest.assorted.coalesce = .ok g ∧ g.WellFormed) ∧
    (∀ p : Pass, ∃ g, p.run Forest.assorted = .ok g ∧ g.WellFormed) ∧
    ∃ g, Forest.assorted.normalize = .ok g ∧ g.WellFormed := by
  have ht : ∀ t ∈ [Forest.assorted, Forest.ofConstant "A" "1"], t.WellFormed := by decide
  have hf : Forest.assorted.WellFormed := by decide
  exact ⟨ht, hf, wellFormed_preserved { keep := .right } ht hf⟩

end Merge

end Reconcile
