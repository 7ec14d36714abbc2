import Reconcile.Proofs.Document.RoundTrip
import Reconcile.Proofs.Json.Rewording

namespace Reconcile.Document

open Json Json.Record

inductive RecordKind where
  | item
  | param
  | typedName
  | signature
  | location

/-- The fields of an item that may be left out. -/
def Tag.defaults (tag : Tag) : List (String × Value) :=
  [("comments", .array []), ("loc", .null)] ++
    match tag with
    | .tree | .moduleNamed | .singleton => [("children", .array [])]
    | .classNamed => [("superclass", .null), ("children", .array [])]
    | .method =>
        [("params", .array []), ("singleton", .bool false), ("visibility", writeVisibility .pub),
          ("sigs", .array [])]
    | .attribute _ => [("visibility", writeVisibility .pub), ("sigs", .array [])]
    | .field _ => [("default", .null)]
    | .enumeration => [("names", .array [])]
    | .constant | .mixin _ | .marker | .helper | .typeMember => []

def tagOf? (members : List (Text × Value)) : Option Tag := do
  (← Record.ofMembers? ["kind"] members).required "kind" tag?

namespace RecordKind

/-- The members that hold records in turn. -/
def parts : RecordKind → List (String × Shape RecordKind)
  | item =>
      [("children", .list item), ("params", .list param), ("sigs", .list signature),
        ("loc", .record location)]
  | signature => [("params", .list typedName)]
  | param | typedName | location => []

/-- The members that may be left out. For an item they depend on its tag. -/
def defaults : RecordKind → List (Text × Value) → List (String × Value)
  | item, members => (tagOf? members).elim [] Tag.defaults
  | param, _ => [("default", .null), ("comments", .array [])]
  | typedName, _ => []
  | signature, _ =>
      [("params", .array []), ("returns", .null), ("abstract", .bool false),
        ("override", .bool false), ("overridable", .bool false), ("final", .bool false),
        ("type_params", .array [])]
  | location, _ =>
      [("file", .null), ("begin_line", .ofNat 0), ("begin_column", .ofNat 0),
        ("end_line", .ofNat 0), ("end_column", .ofNat 0)]

def Meaning : RecordKind → Type
  | item => Item
  | param => Param
  | typedName => TypedName
  | signature => Signature
  | location => Option Location

def read? : (k : RecordKind) → Value → Option k.Meaning
  | item => Item.read?
  | param => Param.read?
  | typedName => TypedName.read?
  | signature => Signature.read?
  | location => orNull Location.read?

end RecordKind

def format : Format RecordKind where
  member k key := k.parts.lookup key
  defaults := RecordKind.defaults

variable {ms ns : List (Text × Value)} {r r' : Record} {tag : Tag}

attribute [local simp] format Format.Retells RecordKind.parts RecordKind.defaults Tag.defaults
  List.lookup_cons

theorem location_preserves
    (h : Alters (format.defaults .location ms) (format.Retells RecordKind.read? .location) ms ns) :
    Preserves (Location.read? (.object ms)) (Location.read? (.object ns)) := by
  refine h.record fun r r' hr => ?_
  refine .bind (hr.optional (by simp) (by simp)) fun file => ?_
  refine .bind (hr.withDefault (.ofNat 0) rfl (by simp) (by simp)) fun beginLine => ?_
  refine .bind (hr.withDefault (.ofNat 0) rfl (by simp) (by simp)) fun beginColumn => ?_
  refine .bind (hr.withDefault (.ofNat 0) rfl (by simp) (by simp)) fun endLine => ?_
  exact .bind (hr.withDefault (.ofNat 0) rfl (by simp) (by simp)) fun endColumn => .refl _

theorem param_preserves
    (h : Alters (format.defaults .param ms) (format.Retells RecordKind.read? .param) ms ns) :
    Preserves (Param.read? (.object ms)) (Param.read? (.object ns)) := by
  refine h.record fun r r' hr => ?_
  refine .bind (hr.required (by simp) (by simp)) fun kind => ?_
  refine .bind (hr.required (by simp) (by simp)) fun name => ?_
  refine .bind (hr.optional (by simp) (by simp)) fun fallback => ?_
  exact .bind (hr.withDefault (.array []) rfl (by simp) (by simp)) fun comments => .refl _

theorem typedName_preserves
    (h : Alters (format.defaults .typedName ms) (format.Retells RecordKind.read? .typedName) ms ns) :
    Preserves (TypedName.read? (.object ms)) (TypedName.read? (.object ns)) := by
  refine h.record fun r r' hr => ?_
  refine .bind (hr.required (by simp) (by simp)) fun name => ?_
  exact .bind (hr.required (by simp) (by simp)) fun type => .refl _

theorem signature_preserves
    (h : Alters (format.defaults .signature ms) (format.Retells RecordKind.read? .signature) ms ns) :
    Preserves (Signature.read? (.object ms)) (Signature.read? (.object ns)) := by
  refine h.record fun r r' hr => ?_
  refine .bind (hr.withDefault (.array []) rfl (by simp) fun v w hk => hk.preserves rfl) fun params => ?_
  refine .bind (hr.optional (by simp) (by simp)) fun returns => ?_
  refine .bind (hr.withDefault (.bool false) rfl (by simp) (by simp)) fun isAbstract => ?_
  refine .bind (hr.withDefault (.bool false) rfl (by simp) (by simp)) fun isOverride => ?_
  refine .bind (hr.withDefault (.bool false) rfl (by simp) (by simp)) fun isOverridable => ?_
  refine .bind (hr.withDefault (.bool false) rfl (by simp) (by simp)) fun isFinal => ?_
  exact .bind (hr.withDefault (.array []) rfl (by simp) (by simp)) fun typeParams => .refl _

theorem content_preserves (tag : Tag)
    (hr : r.Tells tag.defaults (format.Retells RecordKind.read? .item) r') :
    Preserves (content? r tag) (content? r' tag) := by
  cases tag with
  | tree | singleton => exact .refl _
  | moduleNamed | helper =>
      exact .bind (hr.required (by simp) (by simp)) fun name => .refl _
  | classNamed =>
      refine .bind (hr.required (by simp) (by simp)) fun name => ?_
      exact .bind (hr.optional (by simp) (by simp)) fun superclass => .refl _
  | constant | typeMember =>
      refine .bind (hr.required (by simp) (by simp)) fun name => ?_
      exact .bind (hr.required (by simp) (by simp)) fun value => .refl _
  | method =>
      refine .bind (hr.required (by simp) (by simp)) fun name => ?_
      refine .bind (hr.withDefault (.array []) rfl (by simp) fun v w hk => hk.preserves rfl)
        fun params => ?_
      refine .bind (hr.withDefault (.bool false) rfl (by simp) (by simp)) fun isSingleton => ?_
      refine .bind (hr.withDefault (writeVisibility .pub) rfl (by simp) (by simp))
        fun visibility => ?_
      exact .bind (hr.withDefault (.array []) rfl (by simp) fun v w hk => hk.preserves rfl)
        fun signatures => .refl _
  | «attribute» kind =>
      refine .bind (hr.required (by simp) (by simp)) fun names => ?_
      refine .bind (hr.withDefault (writeVisibility .pub) rfl (by simp) (by simp))
        fun visibility => ?_
      exact .bind (hr.withDefault (.array []) rfl (by simp) fun v w hk => hk.preserves rfl)
        fun signatures => .refl _
  | mixin kind => exact .bind (hr.required (by simp) (by simp)) fun names => .refl _
  | marker => exact .bind (hr.required (by simp) (by simp)) fun visibility => .refl _
  | field kind =>
      refine .bind (hr.required (by simp) (by simp)) fun name => ?_
      refine .bind (hr.required (by simp) (by simp)) fun type => ?_
      exact .bind (hr.optional (by simp) (by simp)) fun fallback => .refl _
  | enumeration =>
      exact .bind (hr.withDefault (.array []) rfl (by simp) (by simp)) fun names => .refl _

theorem notes_preserves (tag : Tag)
    (hr : r.Tells tag.defaults (format.Retells RecordKind.read? .item) r') :
    Preserves (notes? r) (notes? r') := by
  have hcomments : ∀ v, ("comments", v) ∈ tag.defaults → v = .array [] := by
    cases tag <;> simp
  have hloc : ∀ v, ("loc", v) ∈ tag.defaults → v = .null := by
    cases tag <;> simp
  refine .bind (hr.withDefault (.array []) rfl hcomments (by simp)) fun comments => ?_
  exact .bind (hr.optional hloc fun v w hk => hk.preserves rfl) fun location => .refl _

theorem head_preserves
    (h : Alters (format.defaults .item ms) (format.Retells RecordKind.read? .item) ms ns) :
    Preserves (head? ms) (head? ns) := by
  intro x hx
  obtain ⟨r, hr, hx⟩ := Option.bind_eq_some_iff.mp hx
  obtain ⟨tag, htag, hx⟩ := Option.bind_eq_some_iff.mp hx
  obtain ⟨r₁, hr₁, hx⟩ := Option.bind_eq_some_iff.mp hx
  obtain ⟨notes, hnotes, hx⟩ := Option.bind_eq_some_iff.mp hx
  obtain ⟨r₂, hr₂, hx⟩ := Option.bind_eq_some_iff.mp hx
  obtain ⟨content, hcontent, hx⟩ := Option.bind_eq_some_iff.mp hx
  have hdefaults : format.defaults .item ms = tag.defaults := by
    have htagOf : tagOf? ms = some tag := Option.bind_eq_some_iff.mpr ⟨r, hr, htag⟩
    simp only [format, RecordKind.defaults, htagOf, Option.elim_some]
  rw [hdefaults] at h
  obtain ⟨r', hr', ht⟩ := h.tells hr
  obtain ⟨r₁', hr₁', ht₁⟩ := h.tells hr₁
  obtain ⟨r₂', hr₂', ht₂⟩ := h.tells hr₂
  have hkind : ∀ v, ("kind", v) ∉ tag.defaults := by
    cases tag <;> simp
  have htag' := ht.required hkind (by simp) tag htag
  have hnotes' := notes_preserves tag ht₁ notes hnotes
  have hcontent' := content_preserves tag ht₂ content hcontent
  simp only [head?, hr', hr₁', hr₂', htag', hnotes', hcontent', Option.bind_eq_bind, Option.bind_some]
  exact hx

theorem exists_leaf {c : Content} (h : content? r tag = some c) (htag : "children" ∉ tag.fields) :
    ∃ l, c = .leaf l := by
  cases tag with
  | tree | moduleNamed | classNamed | singleton => simp [Tag.fields] at htag
  | _ =>
      simp only [content?, Option.bind_eq_bind, Option.bind_eq_some_iff, Option.pure_def] at h
      grind

theorem exists_children {c : Content} {n : Notes} (h : head? ms = some (c, n)) :
    (∃ l, c = .leaf l) ∨ ∃ fields, "children" ∈ fields ∧ ∃ r, ofMembers? fields ms = some r := by
  obtain ⟨_, _, h⟩ := Option.bind_eq_some_iff.mp h
  obtain ⟨tag, _, h⟩ := Option.bind_eq_some_iff.mp h
  obtain ⟨_, _, h⟩ := Option.bind_eq_some_iff.mp h
  obtain ⟨_, _, h⟩ := Option.bind_eq_some_iff.mp h
  obtain ⟨r, hr, h⟩ := Option.bind_eq_some_iff.mp h
  obtain ⟨c, hc, h⟩ := Option.bind_eq_some_iff.mp h
  cases h
  by_cases htag : "children" ∈ tag.fields
  · exact .inr ⟨tag.fields, htag, r, hr⟩
  · exact .inl (exists_leaf hc htag)

theorem readItems?_eq (items : List Value) : readItems? items = items.mapM Item.read? := by
  induction items with
  | nil => rfl
  | cons v vs ih =>
      rw [readItems?, ih, List.mapM_cons]

theorem childrenOf?_eq {fields : List String} (hf : "children" ∈ fields)
    (hr : ofMembers? fields ms = some r) :
    childrenOf? ms = r.withDefault "children" [] (Value.list? Item.read?) := by
  obtain ⟨-, -, rfl⟩ := ofMembers?_eq_some_iff.mp hr
  clear hr
  induction ms with
  | nil => rfl
  | cons m ms ih =>
      obtain ⟨key, v⟩ := m
      rw [childrenOf?.eq_def]
      by_cases hkey : key = some "children"
      · subst hkey
        have hfield : field? fields (some "children", v) = some ("children", v) := by
          simp [field?, hf]
        rw [List.filterMap_cons_some hfield]
        simp only [withDefault, List.lookup_cons_self]
        cases v <;> simp [Value.list?, readItems?_eq]
      · simp only [hkey, if_false]
        rw [ih]
        cases hfield : field? fields (key, v) with
        | none => rw [List.filterMap_cons_none hfield]
        | some m =>
            obtain ⟨hm, -⟩ := Option.filter_eq_some_iff.mp hfield
            obtain ⟨key', rfl, rfl⟩ := Option.map_eq_some_iff.mp hm
            have hne : ("children" == key') = false := by
              rw [beq_eq_false_iff_ne]
              rintro rfl
              exact hkey rfl
            rw [List.filterMap_cons_some hfield]
            simp [withDefault, List.lookup_cons, hne]

theorem item_preserves
    (h : Alters (format.defaults .item ms) (format.Retells RecordKind.read? .item) ms ns) :
    Preserves (Item.read? (.object ms)) (Item.read? (.object ns)) := by
  intro i hi
  rw [Item.read?] at hi ⊢
  obtain ⟨⟨c, n⟩, hc, hi⟩ := Option.bind_eq_some_iff.mp hi
  refine Option.bind_eq_some_iff.mpr ⟨(c, n), head_preserves h _ hc, ?_⟩
  rcases exists_children hc with ⟨l, rfl⟩ | ⟨fields, hf, r, hr⟩
  · exact hi
  · obtain ⟨r', hr', ht⟩ := h.tells hr
    have hdefault : ∀ v, ("children", v) ∈ format.defaults .item ms → v = .array [] := by
      cases htag : tagOf? ms with
      | none => simp [htag]
      | some tag => cases tag <;> simp [htag]
    have hchildren : Preserves (childrenOf? ms) (childrenOf? ns) := by
      rw [childrenOf?_eq hf hr, childrenOf?_eq hf hr']
      exact ht.withDefault (.array []) rfl hdefault fun v w hk => hk.preserves rfl
    cases c with
    | leaf l => exact hi
    | _ => exact (hchildren.bind fun _ => .refl _) i hi

theorem rewords_preserves {s : Shape RecordKind} {v w : Value} (h : format.Rewords s v w) :
    Preserves (s.read? RecordKind.read? v) (s.read? RecordKind.read? w) := by
  apply h.preserves
  intro k ms ns h
  cases k with
  | item => exact item_preserves h
  | param => exact param_preserves h
  | typedName => exact typedName_preserves h
  | signature => exact signature_preserves h
  | location => exact (location_preserves h).map some

variable {items : List Item} {w : Value}

/-- A document is read from its written form in any other words, with the members of all objects in
any order and without those that have their default, and so from both texts of it. Only texts are
limited in how deep they are nested. -/
theorem parse?_of_rewords (h : format.Rewords (.list .item) (write items) w) :
    Value.list? Item.read? w = some items ∧
      (w.depth ≤ maxDepth → parse? w.compact = some items ∧ parse? w.pretty = some items) := by
  have hw := h.written (written_write items)
  have hread : Value.list? Item.read? (write items) = some items := by
    rw [write, Value.list?, ← readItems?_eq]
    exact readItems?_writeItems fun i _ => i.read?_write
  have hlist : Value.list? Item.read? w = some items := rewords_preserves h items hread
  refine ⟨hlist, fun hd => ?_⟩
  have hdoc : read? w = some items := by
    cases w with
    | array vs => exact read?_of_readItems? hw hd ((readItems?_eq vs).trans hlist)
    | _ => cases hlist
  constructor
  · rw [parse?, hw.parse?_compact]
    exact hdoc
  · rw [parse?, hw.parse?_pretty]
    exact hdoc

theorem parse?_of_rewords_class :
    let items : List Item := [.scope (.classNamed "A" none) {} [.leaf (.enumeration []) {}]]
    let w : Value := .array [.ofMembers
      [("children", .array [.ofMembers [("kind", .ofString "enum")]]), ("name", .ofString "A"),
        ("kind", .ofString "class")]]
    format.Rewords (.list .item) (write items) w ∧ w.depth ≤ maxDepth ∧
      Value.list? Item.read? w = some items ∧ parse? w.compact = some items := by
  intro items w
  have henumeration : format.Rewords (.list .item)
      (.array [.ofMembers [("kind", .ofString "enum"), ("names", .array [])]])
      (.array [.ofMembers [("kind", .ofString "enum")]]) := by
    refine .item [] [] (.leave [(some "kind", .ofString "enum")] [] ?_)
    have htag : tagOf? [(some "kind", .ofString "enum"), (some "names", .array [])] =
        some .enumeration := rfl
    simp [htag]
  let front : List (Text × Value) := [(some "kind", .ofString "class"), (some "name", .ofString "A")]
  have hclass : format.Rewords (.list .item) (write items) w := by
    apply Format.Rewords.item [] []
    apply Format.Rewords.trans (.leave front [(some "children", _)] ?_)
    · apply Format.Rewords.trans (.member front [] (s := .list .item) rfl henumeration)
      exact .permute (List.reverse_perm _).symm
    · have htag (u v : Value) :
          tagOf? (front ++ [(some "superclass", u), (some "children", v)]) = some .classNamed := rfl
      simp [htag, Value.ofOption]
  have h := parse?_of_rewords hclass
  exact ⟨hclass, by decide, h.1, (h.2 (by decide)).1⟩

end Reconcile.Document
