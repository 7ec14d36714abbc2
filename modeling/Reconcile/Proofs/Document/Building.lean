import Reconcile.Document.Writer
import Reconcile.Proofs.Document.Planting

namespace Reconcile

open Forest Outline

namespace Document

namespace Item

def content : Item → Content
  | tree _ _ => .tree
  | scope s _ _ => .scope s
  | leaf l _ => .leaf l

def notes : Item → Notes
  | tree n _ | scope _ n _ | leaf _ n => n

def children : Item → List Item
  | tree _ items | scope _ _ items => items
  | leaf _ _ => []

/-- An attribute or a mixin that names nothing. -/
def LacksNames : Item → Prop
  | leaf (.attribute a) _ => a.names = []
  | leaf (.mixin m) _ => m.names = []
  | _ => False

instance : DecidablePred LacksNames
  | leaf (.attribute a) _ => inferInstanceAs (Decidable (a.names = []))
  | leaf (.mixin m) _ => inferInstanceAs (Decidable (m.names = []))
  | leaf (.constant ..) _ | leaf (.method _) _ | leaf (.marker _) _ | leaf (.field _) _
  | leaf (.enumeration _) _ | leaf (.helper _) _ | leaf (.typeMember ..) _ | tree .. | scope .. =>
      inferInstanceAs (Decidable False)

/-- The keyword that an item is refused with on its own account. -/
def refusal? : Item → Option String
  | leaf l _ => Document.nameless? l
  | _ => none

end Item

/-- The handles of items in a row, the first of them being `h`. Whatever is in an item comes between
the item and the one after it. -/
def rowHandles (h : Handle) : List Item → List Handle
  | [] => []
  | i :: is => h :: rowHandles (h + i.preorder.length) is

mutual

/-- The item that is read back from an outline. -/
def Item.ofOutline? : Outline → Option Item
  | .node _ .tree n cs => (ofOutlines? cs).map (.tree n)
  | .node _ (.scope s) n cs => (ofOutlines? cs).map (.scope s n)
  | .node _ (.leaf l) n _ => some (.leaf l n)
  | _ => none

def ofOutlines? : List Outline → Option (List Item)
  | [] => some []
  | o :: os => do return (← Item.ofOutline? o) :: (← ofOutlines? os)

end

variable {i : Item} {items : List Item} {f : Forest} {o : Outline} {h : Handle}
  {parent : Option Handle}

theorem refusal?_of_lacksNames (h : i.LacksNames) : i.refusal? = some i.tag.name := by
  unfold Item.LacksNames at h
  split at h
  · simp [Item.refusal?, nameless?, h]; rfl
  · simp [Item.refusal?, nameless?, h]; rfl
  · cases h

theorem refusal?_eq_none (h : ¬ i.LacksNames) : i.refusal? = none := by
  unfold Item.refusal?
  split
  · next l n =>
      unfold Item.LacksNames at h
      unfold Document.nameless?
      split
      · exact if_neg (by simpa using h)
      · exact if_neg (by simpa using h)
      · rfl
  · rfl

theorem nameless?_eq (i : Item) : i.nameless? = i.preorder.findSome? Item.refusal? := by
  have all {items : List Item} (ih : ∀ i ∈ items, i.nameless? = i.preorder.findSome? Item.refusal?) :
      firstNameless? items = (preorderOfAll items).findSome? Item.refusal? := by
    induction items with
    | nil => rfl
    | cons i items ihs =>
        rw [firstNameless?, preorderOfAll, List.findSome?_append, ih i List.mem_cons_self,
          ihs fun j hj => ih j (List.mem_cons_of_mem i hj)]
  induction i using Item.induction with
  | tree n items ih | scope s n items ih =>
      rw [Item.nameless?, Item.preorder, List.findSome?_cons, all ih]
      rfl
  | leaf l n =>
      rw [Item.nameless?, Item.preorder, List.findSome?_singleton]
      rfl

theorem firstNameless?_eq (items : List Item) :
    firstNameless? items = (preorderOfAll items).findSome? Item.refusal? :=
  nameless?_eq (.tree {} items)

theorem map_handle_numberedAll (h : Handle) (items : List Item) :
    (numberedAll h items).map handle = rowHandles h items := by
  induction items generalizing h with
  | nil => rfl
  | cons i items ih => rw [numberedAll, List.map_cons, handle_numbered, ih, rowHandles]

theorem numbered_eq (i : Item) (h : Handle) :
    i.numbered h = .node h i.content i.notes (numberedAll (h + 1) i.children) := by
  cases i <;> rfl

theorem ofOutline?_numbered (i : Item) (h : Handle) : Item.ofOutline? (i.numbered h) = some i := by
  have all {items : List Item} (ih : ∀ i ∈ items, ∀ h, Item.ofOutline? (i.numbered h) = some i)
      (h : Handle) : ofOutlines? (numberedAll h items) = some items := by
    induction items generalizing h with
    | nil => rfl
    | cons i items ihs =>
        rw [numberedAll, ofOutlines?, ih i List.mem_cons_self,
          ihs fun j hj => ih j (List.mem_cons_of_mem i hj)]
        rfl
  induction i using Item.induction generalizing h with
  | tree n items ih | scope s n items ih =>
      rw [Item.numbered, Item.ofOutline?, all ih, Option.map_some]
  | leaf l n => rfl

theorem look_of_numbered (hi : (i.numbered h).Holds f.look parent) :
    f.look h = some ⟨.plain i.content, i.notes, parent, rowHandles (h + 1) i.children⟩ := by
  rw [numbered_eq, holds_node, map_handle_numberedAll] at hi
  exact hi.1

/-- Building a document gives a well-formed forest with a row for every item, in document order, from
which the document can be read back. If some declarations lack their names, the document is refused
with the keyword of the first of them. -/
theorem build_exact (items : List Item) :
    ((∀ i ∈ preorderOfAll items, ¬ i.LacksNames) →
      ∃ f, build items = .ok f ∧ f.WellFormed ∧ f.size = (preorderOfAll items).length + 1 ∧
        f.look Forest.root = some ⟨.plain .tree, {}, none, rowHandles 1 items⟩ ∧
        (∀ k i, (preorderOfAll items)[k]? = some i → ∃ p, f.look (k + 1) =
          some ⟨.plain i.content, i.notes, some p, rowHandles (k + 2) i.children⟩) ∧
        ∃ o, f.outline Forest.root = .ok o ∧ Item.ofOutline? o = some (.tree {} items)) ∧
    ((∃ i ∈ preorderOfAll items, i.LacksNames) →
      ∃ before i after, preorderOfAll items = before ++ i :: after ∧
        (∀ j ∈ before, ¬ j.LacksNames) ∧ i.LacksNames ∧
        build items = .error (.missingNames i.tag.name)) := by
  refine ⟨fun h => ?_, fun h => ?_⟩
  · have hnone : firstNameless? items = none := by
      rw [firstNameless?_eq, List.findSome?_eq_none_iff]
      exact fun i hi => refusal?_eq_none (h i hi)
    obtain ⟨f, hf⟩ : ∃ f, build items = .ok f := by rw [build, hnone]; exact ⟨_, rfl⟩
    obtain ⟨hw, hsize, hshows⟩ := shows_numbered hf
    refine ⟨f, hf, hw, hsize, look_of_numbered hshows.holds, fun k i hk => ?_, _, hshows.outline,
      ofOutline?_numbered _ _⟩
    have hx : i.numbered (Forest.root + (k + 1)) ∈ (numberedAll (Forest.root + 1) items).flatMap subtrees := by
      rw [subtrees_numberedAll, List.mem_iff_getElem?]
      exact ⟨k, by rw [List.getElem?_mapIdx, hk, Option.map_some]⟩
    obtain ⟨p, hp⟩ := hshows.holds.of_mem_below hx
    refine ⟨p, ?_⟩
    rw [show k + 1 = Forest.root + (k + 1) from (Nat.zero_add _).symm, look_of_numbered hp]
    simp only [Forest.root, Nat.zero_add]
  · obtain ⟨l, hl, hlacks⟩ := h
    obtain ⟨name, hname⟩ : ∃ name, firstNameless? items = some name := by
      rw [firstNameless?_eq, ← Option.isSome_iff_exists, List.findSome?_isSome_iff]
      exact ⟨l, hl, by rw [refusal?_of_lacksNames hlacks]; rfl⟩
    obtain ⟨before, i, after, hitems, hi, hbefore⟩ :=
      List.findSome?_eq_some_iff.mp ((firstNameless?_eq items).symm.trans hname)
    have hlacks : i.LacksNames := by
      by_contra hnot
      rw [refusal?_eq_none hnot] at hi
      cases hi
    refine ⟨before, i, after, hitems, fun j hj hlacks => ?_, hlacks, ?_⟩
    · have hnone := hbefore j hj
      rw [refusal?_of_lacksNames hlacks] at hnone
      cases hnone
    · rw [refusal?_of_lacksNames hlacks] at hi
      rw [build, hname, ← Option.some.inj hi]

theorem build_exact_nested :
    let method : Item := .leaf (.method ⟨"m", [⟨.optional, "x", some "1", ["# x"]⟩], false, .priv,
      [⟨[⟨"x", "Integer"⟩], none, false, true, false, false, ["T"]⟩]⟩) ⟨["# m"], some ⟨none, 1, 2, 3, 4⟩⟩
    let items : List Item := [.scope (.classNamed "C" (some "B")) {}
      [.tree {} [.leaf (.enumeration ["A"]) {}], .leaf (.mixin ⟨.inclusion, ["M"]⟩) {}], method]
    let nameless : List Item := [.scope .singleton {} [method, .leaf (.mixin ⟨.extension, []⟩) {}],
      .leaf (.attribute ⟨.writer, [], .pub, []⟩) {}]
    (∃ f, build items = .ok f ∧ f.size = 6 ∧
      ∃ p, f.look 5 = some ⟨.plain method.content, method.notes, some p, []⟩) ∧
    build nameless = .error (.missingNames "extend") := by
  intro method items nameless
  constructor
  · obtain ⟨f, hf, -, hsize, -, hrows, -⟩ := (build_exact items).1 (by decide)
    exact ⟨f, hf, hsize, hrows 4 method rfl⟩
  · obtain ⟨before, i, after, hitems, hbefore, hi, herror⟩ := (build_exact nameless).2 (by decide)
    rcases before with _ | ⟨j, _ | ⟨k, _ | ⟨l, before⟩⟩⟩
    · cases hitems
      exact hi.elim
    · cases hitems
      exact hi.elim
    · cases hitems
      exact herror
    · have hl : Item.leaf (.mixin ⟨.extension, []⟩) {} = l :=
        Option.some.inj (congrArg (fun items => items[2]?) hitems)
      exact absurd (hl ▸ rfl) (hbefore l (by simp))

end Document

end Reconcile
