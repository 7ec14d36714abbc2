import Reconcile.Proofs.Document.Planting
import Reconcile.Proofs.Forest.Identity
import Reconcile.Proofs.Normal.Idempotence
import Reconcile.Proofs.Normal.Inventory

namespace Reconcile

open Outline Layout

def Leaf.isMarker : Leaf → Bool
  | .marker _ => true
  | _ => false

namespace Forest

/-- No declaration is a standalone marker of visibility. -/
def MarkerFree (f : Forest) : Prop :=
  ∃ o, f.outline root = .ok o ∧ ∀ x ∈ o.leaves, x.1.isMarker = false

instance (f : Forest) : Decidable f.MarkerFree :=
  decidable_of_iff (∃ o ∈ (f.outline root).toOption, ∀ x ∈ o.leaves, x.1.isMarker = false)
    (by simp only [mem_toOption, MarkerFree])

end Forest

namespace Outline

theorem leaves_forget (o : Outline) : o.forget.leaves = o.leaves := by
  induction o with
  | node h c n cs ih =>
      rw [forget_node, leaves_node, leaves_node, List.flatMap_map, List.flatMap_congr ih]
  | conflict h form labels n l r ihl ihr =>
      rw [forget_conflict, leaves_conflict, leaves_conflict, ihl, ihr]

theorem ownVisibilities_forget (cs : List Outline) :
    ownVisibilities (cs.map forget) = ownVisibilities cs := by
  have hvisibility (x : Outline) : x.forget.kind.visibility? = x.kind.visibility? := by
    cases x with
    | node => rfl
    | conflict => rfl
  have hsingleton (x : Outline) : x.forget.isSingletonMethod = x.isSingletonMethod :=
    isSingletonMethod_rename _ x
  simp [ownVisibilities, List.filter_map, List.filterMap_map, Function.comp_def, hvisibility, hsingleton]

theorem stretches_forget (o : Outline) : o.forget.stretches = o.stretches := by
  induction o with
  | node h c n cs ih =>
      cases c with
      | tree => simp [stretches, ownVisibilities_forget, List.flatMap_map, List.flatMap_congr ih]
      | _ => simp [stretches]
  | conflict => rfl

theorem bodies_forget (o : Outline) : o.forget.bodies = o.bodies := by
  induction o with
  | node h c n cs ih =>
      cases c with
      | tree => simp [bodies, List.flatMap_map, List.flatMap_congr ih]
      | scope =>
          simp [bodies, ownVisibilities_forget, List.flatMap_map, List.flatMap_congr ih,
            List.flatMap_congr fun x _ => stretches_forget x]
      | _ => simp [bodies]
  | conflict => rfl

theorem inOrder_forget (o : Outline) : o.forget.InOrder ↔ o.InOrder := by
  rw [InOrder, InOrder, stretches_forget, bodies_forget]

theorem memberLeaves_forget (o : Outline) : o.forget.memberLeaves = o.memberLeaves := by
  rw [memberLeaves, memberLeaves, leaves_forget]

end Outline

namespace Document

theorem plain_sketch (i : Item) (hm : ∀ x ∈ i.sketch.leaves, x.1.isMarker = false) : i.sketch.Plain := by
  have children {items : List Item} (ih : ∀ i ∈ items,
      (∀ x ∈ i.sketch.leaves, x.1.isMarker = false) → i.sketch.Plain)
      (hm : ∀ x ∈ (items.map Item.sketch).flatMap leaves, x.1.isMarker = false) :
      ∀ x ∈ items.map Item.sketch, x.Plain := by
    intro x hx
    obtain ⟨i, hi, rfl⟩ := List.mem_map.mp hx
    exact ih i hi fun y hy => hm y (List.mem_flatMap.mpr ⟨_, hx, hy⟩)
  induction i using Item.induction with
  | tree n items ih =>
      rw [Item.sketch, sketches_eq] at hm ⊢
      exact .tree 0 n _ (children ih (by simpa [ownLeaf] using hm))
  | scope s n items ih =>
      rw [Item.sketch, sketches_eq] at hm ⊢
      exact .scope 0 s n _ (children ih (by simpa [ownLeaf] using hm))
  | leaf l n =>
      refine .leaf 0 l n ?_
      rintro v rfl
      cases hm (.marker v, n) (by simp [Item.sketch, ownLeaf])

theorem exists_plain {text : String} {f : Forest} (hf : load text = .ok f) (hm : f.MarkerFree) :
    ∃ t, f.Shows t ∧ t.forget.Plain := by
  obtain ⟨items, hitems⟩ : ∃ items, build items = .ok f := by
    rw [load] at hf
    split at hf
    · exact ⟨_, hf⟩
    · cases hf
  obtain ⟨t, ht, hforget⟩ := exists_shows hitems
  obtain ⟨o, ho, hm⟩ := hm
  cases ho.symm.trans ht.outline
  refine ⟨t, ht, ?_⟩
  rw [← leaves_forget, hforget] at hm
  rw [hforget]
  exact plain_sketch _ hm

end Document

namespace Outline

/-- The normal form of an outline. -/
def normal (o : Outline) : Outline := o.nested.arranged

variable {o : Outline} {style : Style}

namespace Plain

variable (ho : o.Plain) (hv : o.kind.visibility? = none)
include ho hv

theorem filed_normal : o.normal.Filed :=
  ho.nested.filed_arranged (by rwa [kind_nested])

theorem perm_shown : ((shown [.pub] (treePieces style o.normal)).map (·.1)).Perm
    (o.memberLeaves.map Leaf.clearSingleton) := by
  have hsingle : o.isSingletonMethod = false := by
    cases ho with
    | tree | scope => rfl
    | leaf h l n hm =>
        cases l with
        | method => cases hv
        | _ => rfl
  refine ((shown_treePieces (ho.filed_normal hv)).map _).trans ?_
  rw [List.map_append, Band.map_fst_seen]
  exact (ho.filed_normal hv).perm_memberLeaves.trans
    (ho.nested.perm_arranged.trans (ho.perm_nested hsingle))

theorem shown_of_not_pub {x : Leaf × Visibility}
    (hx : x ∈ shown [.pub] (treePieces style o.normal))
    (hpub : x.1.visibility? ≠ some .pub) : x.1.visibility? = some x.2 := by
  have hfiled := ho.filed_normal hv
  rw [(shown_treePieces hfiled).mem_iff, List.mem_append] at hx
  rcases hx with hx | hx
  · exact Band.seen_of_not_pub hfiled.truthful hx hpub
  · exact hfiled.seenInScopes_of_not_pub hx hpub

theorem shown_iff_inOrder : (∀ x ∈ shown [.pub] (treePieces style o.normal),
    x.1.visibility? = some x.2) ↔ o.InOrder := by
  have hfiled := ho.filed_normal hv
  have hsingle : o.nested.Everywhere (Children NoSingletons) false := noSingletons_nestSingletons o
  have hbands := seen_iff_ordered hfiled.truthful (ho.nested.visibility_bands hsingle)
  have hscopes := ho.nested.seenInScopes_iff hsingle
  simp only [(shown_treePieces hfiled).mem_iff, List.forall_mem_append]
  rw [← ho.inOrder_nested, InOrder, List.forall_mem_cons]
  exact and_congr hbands hscopes

end Plain

end Outline

/-- In the layout of the normal form of a loaded tree without markers, each method and attribute is
shown once. One that is not public is shown as it is declared; all are if and only if the bodies of
the tree are in order. -/
theorem shown_as_declared_iff {text : String} {f : Forest} (hf : Document.load text = .ok f)
    (hm : f.MarkerFree) (style : Style) : ∃ t g o, f.outline Forest.root = .ok t ∧
      f.normalize = .ok g ∧ g.outline Forest.root = .ok o ∧
      g.render style = .ok (Layout.text style ((treePieces style o).flatMap Piece.lines)) ∧
      ((shown [.pub] (treePieces style o)).map (·.1)).Perm (t.memberLeaves.map Leaf.clearSingleton) ∧
      (∀ x ∈ shown [.pub] (treePieces style o),
        x.1.visibility? ≠ some .pub → x.1.visibility? = some x.2) ∧
      ((∀ x ∈ shown [.pub] (treePieces style o), x.1.visibility? = some x.2) ↔ t.InOrder) := by
  obtain ⟨t, ht, hplain⟩ := Document.exists_plain hf hm
  obtain ⟨g, o, hg, ho, hforget⟩ := ht.runPasses Pass.canonical
  have hnormal : o.forget = t.forget.normal := hforget
  have hv : t.forget.kind.visibility? = none := by
    cases t with
    | node h c n cs => cases ht.tree; rfl
    | conflict => rfl
  have hpieces : treePieces style o = treePieces style t.forget.normal := by
    rw [← hnormal]
    exact (treePieces_rename o).symm
  refine ⟨t, g, o, ht.outline, hg, ho.outline, ?_, ?_, ?_, ?_⟩
  · simp only [Forest.render, ho.outline, bind, Except.bind, flatMap_lines_treePieces]
    rfl
  · rw [hpieces, ← memberLeaves_forget]
    exact hplain.perm_shown hv
  · rw [hpieces]
    exact fun x hx => hplain.shown_of_not_pub hv hx
  · rw [hpieces, ← inOrder_forget]
    exact hplain.shown_iff_inOrder hv

def Document.orderedText : String :=
  "[\x7b\"kind\":\"method\",\"name\":\"a\"\x7d,\x7b\"kind\":\"tree\",\"children\":[" ++
    "\x7b\"kind\":\"method\",\"name\":\"b\",\"visibility\":\"private\"\x7d]\x7d]"

def Forest.orderedTree : Forest :=
  ⟨#[{ kind := .plain .tree, children := [1, 2] },
    { kind := .plain (.leaf (.method { name := "a" })), parent := some 0 },
    { kind := .plain .tree, parent := some 0, children := [3] },
    { kind := .plain (.leaf (.method { name := "b", visibility := .priv })), parent := some 2 }]⟩

theorem shown_as_declared_ordered : Document.load Document.orderedText = .ok Forest.orderedTree ∧
    Forest.orderedTree.MarkerFree ∧ ∃ t g o, Forest.orderedTree.outline Forest.root = .ok t ∧
      t.InOrder ∧ Forest.orderedTree.normalize = .ok g ∧ g.outline Forest.root = .ok o ∧
      ∀ x ∈ shown [.pub] (treePieces {} o), x.1.visibility? = some x.2 := by
  have hf : Document.load Document.orderedText = .ok Forest.orderedTree := by decide +kernel
  have hm : Forest.orderedTree.MarkerFree := by decide
  obtain ⟨t, g, o, ht, hg, ho, -, -, -, hiff⟩ := shown_as_declared_iff hf hm {}
  have horder : t.InOrder := by
    cases ht
    decide
  exact ⟨hf, hm, t, g, o, ht, horder, hg, ho, hiff.mpr horder⟩

def Document.nestedText : String :=
  "[\x7b\"kind\":\"class\",\"name\":\"Foo\",\"children\":[" ++
    "\x7b\"kind\":\"method\",\"name\":\"a\",\"visibility\":\"private\"\x7d," ++
    "\x7b\"kind\":\"tree\",\"children\":[\x7b\"kind\":\"method\",\"name\":\"b\"\x7d]\x7d]\x7d]"

def Forest.nestedTree : Forest :=
  ⟨#[{ kind := .plain .tree, children := [1] },
    { kind := .plain (.scope (.classNamed "Foo" none)), parent := some 0, children := [2, 3] },
    { kind := .plain (.leaf (.method { name := "a", visibility := .priv })), parent := some 1 },
    { kind := .plain .tree, parent := some 1, children := [4] },
    { kind := .plain (.leaf (.method { name := "b" })), parent := some 3 }]⟩

/-- The public method comes under the heading of the private one. -/
theorem public_shown_as_private : Document.load Document.nestedText = .ok Forest.nestedTree ∧
    Forest.nestedTree.MarkerFree ∧ ∃ g o, Forest.nestedTree.normalize = .ok g ∧
      g.outline Forest.root = .ok o ∧
      g.render {} = .ok "class Foo\n  private\n\n  def a; end\n\n  def b; end\nend\n" ∧
      (.method { name := "b" }, .priv) ∈ shown [.pub] (treePieces {} o) :=
  ⟨by decide +kernel, by decide, _, _, rfl, rfl, by decide +kernel, by decide +kernel⟩

end Reconcile
