import Reconcile.Proofs.Forest.Ranking
import Reconcile.Proofs.Layout.Resolving

namespace Reconcile.Layout

variable {style : Style} {o o' : Outline}

theorem displayed_of_same (hl : style.showLocations = false) (hs : o.same o' = true) :
    displayed style o = displayed style o' := by
  have hnot : ¬style.showLocations = true := by simp [hl]
  rw [displayed, if_neg hnot]
  exact Outline.gist_of_same hs

theorem lines_of_same (hl : style.showLocations = false) (hs : o.same o' = true) (level : Nat)
    (grouped : Bool) : lines style level grouped o = lines style level grouped o' := by
  rw [← (lines_displayed o level grouped).1, displayed_of_same hl hs,
    (lines_displayed o' level grouped).1]

theorem treeLines_of_same (hl : style.showLocations = false) (hs : o.same o' = true) :
    treeLines style o = treeLines style o' := by
  rw [← treeLines_displayed, displayed_of_same hl hs, treeLines_displayed]

/-- Any two nodes can be compared. If they are equal, they are printed alike, each by itself or, if
they are roots, as a whole tree. -/
theorem printed_alike {f g : Forest} (hf : f.WellFormed) (hg : g.WellFormed) {a b : Handle}
    (ha : a < f.size) (hb : b < g.size) :
    ∃ alike, f.same a g b = .ok alike ∧
      (alike = true → ∀ style : Style, style.showLocations = false →
        (∃ t, f.renderNode a style = .ok t ∧ g.renderNode b style = .ok t) ∧
        (a = Forest.root → b = Forest.root →
          ∃ t, f.render style = .ok t ∧ g.render style = .ok t)) := by
  obtain ⟨o, ho, -⟩ := hf.exists_outline (Array.getElem?_eq_getElem ha)
  obtain ⟨o', ho', -⟩ := hg.exists_outline (Array.getElem?_eq_getElem hb)
  refine ⟨o.same o', by rw [Forest.same, ho, ho']; rfl, fun hs style hl => ⟨?_, ?_⟩⟩
  · refine ⟨text style (lines style 0 false o), by rw [Forest.renderNode, ho]; rfl, ?_⟩
    rw [Forest.renderNode, ho', lines_of_same hl hs]
    rfl
  · rintro rfl rfl
    refine ⟨text style (treeLines style o), by rw [Forest.render, ho]; rfl, ?_⟩
    rw [Forest.render, ho', treeLines_of_same hl hs]
    rfl

def contestedAgain : Forest :=
  let here : Location := { file := some "a.rb", beginLine := 1, endLine := 9, endColumn := 3 }
  ⟨#[{ kind := .plain .tree, children := [2] },
    { kind := .plain (.scope (.classNamed "A" (some "B"))), notes := ⟨[], some here⟩, parent := some 2,
      children := [8] },
    { kind := .conflict .headers ⟨"ours", "theirs"⟩ 1 3, parent := some 0 },
    { kind := .plain (.scope (.classNamed "A" (some "C"))), notes := ⟨["two\nlines"], none⟩,
      parent := some 2 },
    { kind := .plain (.leaf (.constant "X" "2")), parent := some 5 },
    { kind := .plain .tree, parent := some 8, children := [4] },
    { kind := .plain (.leaf (.constant "X" "1")), parent := some 7 },
    { kind := .plain .tree, parent := some 8, children := [6] },
    { kind := .conflict .declarations ⟨"ours", "theirs"⟩ 7 5, parent := some 1 }]⟩

theorem printed_alike_contested : contested.WellFormed ∧ contestedAgain.WellFormed ∧
    contested.same 0 contestedAgain 0 = .ok true ∧ contested.same 1 contestedAgain 2 = .ok true ∧
    (∃ t, contested.render {} = .ok t ∧ contestedAgain.render {} = .ok t) ∧
    ∃ t, contested.renderNode 1 {} = .ok t ∧ contestedAgain.renderNode 2 {} = .ok t := by
  have hf : contested.WellFormed := by decide
  have hg : contestedAgain.WellFormed := by decide
  obtain ⟨_, he, htree⟩ := printed_alike hf hg (a := 0) (b := 0) (by decide) (by decide)
  obtain ⟨_, he', hnode⟩ := printed_alike hf hg (a := 1) (b := 2) (by decide) (by decide)
  cases he
  cases he'
  exact ⟨hf, hg, rfl, rfl, (htree rfl {} rfl).2 rfl rfl, (hnode rfl {} rfl).1⟩

end Reconcile.Layout
