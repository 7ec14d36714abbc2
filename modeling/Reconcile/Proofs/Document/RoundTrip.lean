import Reconcile.Document.Reader
import Reconcile.Document.Writer
import Reconcile.Proofs.Document.Planting
import Reconcile.Proofs.Json.Parsing

namespace Reconcile

namespace Json

variable {α : Type} {fields : List String} {field : String} {members : List (String × Value)}

namespace Record

theorem ofMembers?_eq (h : (members.map Prod.fst).Nodup) (fields : List String) :
    ofMembers? fields (members.map fun (key, v) => (some key, v)) =
      some (members.filter (·.1 ∈ fields)) := by
  have htexts : textMembers? (members.map fun (key, v) => (some key, v)) = some members := by
    clear h
    induction members with
    | nil => rfl
    | cons m ms ih =>
        rw [textMembers?] at ih
        simp [textMembers?, ih]
  have hkeys : ((members.filter (·.1 ∈ fields)).map Prod.fst).Nodup :=
    h.sublist (List.filter_sublist.map Prod.fst)
  simp [ofMembers?, htexts, hkeys]

theorem lookup_filter (h : field ∈ fields) :
    (members.filter (·.1 ∈ fields)).lookup field = members.lookup field := by
  induction members with
  | nil => rfl
  | cons m ms ih =>
      obtain ⟨key, v⟩ := m
      by_cases hkey : field = key
      · subst hkey
        simp [h]
      · have hne : (field == key) = false := by simpa using hkey
        by_cases hm : key ∈ fields
        · simp [hm, List.lookup_cons, hne, ih]
        · simp [hm, List.lookup_cons, hne, ih]

theorem optional_cons_ne {key : String} {v : Value} {r : Record} {read : Value → Option α}
    (h : field ≠ key) : Record.optional ((key, v) :: r) field read = r.optional field read := by
  have hne : (field == key) = false := by simpa using h
  simp [optional, List.lookup_cons, hne]

theorem optional_cons_self (r : Record) (o : Option String) :
    Record.optional ((field, .ofOption .ofString o) :: r) field Value.text? = some o := by
  cases o with
  | none => simp [optional, Value.ofOption]
  | some s => simp [optional, Value.ofOption, Value.ofString, Value.text?]

end Record

namespace Value

variable {read : Value → Option α} {write : α → Value}

theorem record?_ofMembers (h : (members.map Prod.fst).Nodup)
    (hfields : ∀ m ∈ members, m.1 ∈ fields) : (ofMembers members).record? fields = some members := by
  have hall : members.filter (·.1 ∈ fields) = members := by simpa using hfields
  rw [ofMembers, record?, Record.ofMembers?_eq h, hall]

@[simp] theorem text?_ofString (s : String) : (ofString s).text? = some s := rfl

theorem word?_ofNat (n : UInt64) : (ofNat n.toNat).word? = some n := by
  simp [ofNat, word?, n.toNat_lt]

theorem list?_map (h : ∀ a, read (write a) = some a) (xs : List α) :
    list? read (.array (xs.map write)) = some xs := by
  induction xs with
  | nil => rfl
  | cons a xs ih =>
      rw [list?] at ih ⊢
      simp [h, ih]

@[simp] theorem texts?_ofStrings (texts : List String) : (ofStrings texts).texts? = some texts :=
  list?_map text?_ofString texts

theorem choice?_ofString (isVoid : Value → Bool) (table : List (String × α)) (name : String) :
    choice? isVoid table (ofString name) = table.lookup name := rfl

theorem depth_lt_of_mem_items {items : List Value} {v : Value} (h : v ∈ items) :
    v.depth < (array items).depth := by
  rw [depth]
  induction items with
  | nil => cases h
  | cons w ws ih =>
      rw [depthOfAll]
      rcases List.mem_cons.mp h with rfl | h
      · omega
      · have hv := ih h
        omega

theorem depth_lt_of_mem_object {members : List (Text × Value)} {m : Text × Value} (h : m ∈ members) :
    m.2.depth < (object members).depth := by
  rw [depth]
  induction members with
  | nil => cases h
  | cons w ws ih =>
      rw [depthOfMembers]
      rcases List.mem_cons.mp h with rfl | h
      · omega
      · have hv := ih h
        omega

end Value

end Json

theorem ParamKind.lookup_name (k : ParamKind) : ParamKind.table.lookup k.name = some k := by
  cases k <;> rfl

theorem Visibility.lookup_keyword (v : Visibility) : Visibility.table.lookup v.keyword = some v := by
  cases v <;> rfl

open Json Json.Value Json.Record

namespace Json.Written

attribute [simp] null bool word text

@[simp] theorem ofOption (o : Option String) : Written (.ofOption .ofString o) := by
  cases o with
  | none => exact null
  | some s => exact text s

theorem map {α : Type} {write : α → Value} (h : ∀ a, Written (write a)) (xs : List α) :
    Written (.array (xs.map write)) := by
  apply array
  simpa using fun a _ => h a

@[simp] theorem ofStrings (texts : List String) : Written (.ofStrings texts) := map text texts

end Json.Written

@[simp] theorem Location.written_write (l : Location) : Written l.write :=
  .object _ (by simp)

@[simp] theorem Param.written_write (p : Param) : Written p.write :=
  .object _ (by simp)

@[simp] theorem TypedName.written_write (p : TypedName) : Written p.write :=
  .object _ (by simp)

@[simp] theorem Signature.written_write (s : Signature) : Written s.write :=
  .object _ (by simp [Written.map TypedName.written_write])

theorem Location.read?_write (l : Location) : Location.read? l.write = some l := by
  rw [Location.write, Location.read?, record?_ofMembers (by simp) (by simp)]
  simp [List.lookup_cons, withDefault, optional_cons_self, word?_ofNat]

theorem Param.read?_write (p : Param) : Param.read? p.write = some p := by
  rw [Param.write, Param.read?, record?_ofMembers (by simp) (by simp)]
  simp [List.lookup_cons, required, withDefault, optional_cons_ne, optional_cons_self,
    choice?_ofString, ParamKind.lookup_name]

theorem TypedName.read?_write (p : TypedName) : TypedName.read? p.write = some p := by
  rw [TypedName.write, TypedName.read?, record?_ofMembers (by simp) (by simp)]
  simp [List.lookup_cons, required]

theorem Signature.read?_write (s : Signature) : Signature.read? s.write = some s := by
  rw [Signature.write, Signature.read?, record?_ofMembers (by simp) (by simp)]
  simp [List.lookup_cons, withDefault, optional_cons_ne, optional_cons_self, bool?,
    list?_map TypedName.read?_write]

namespace Document

theorem keys_leafMembers (l : Leaf) : (leafMembers l).map Prod.fst = (leafTag l).fields := by
  cases l <;> rfl

theorem keys_scopeMembers (s : Scope) (v : Value) :
    (scopeMembers s ++ [("children", v)]).map Prod.fst = (scopeTag s).fields := by
  cases s <;> rfl

theorem tag?_name (tag : Tag) : tag? (.ofString tag.name) = some tag := by
  cases tag with
  | «attribute» kind | mixin kind | field kind => cases kind <;> rfl
  | _ => rfl

theorem content?_leafMembers (l : Leaf) : content? (leafMembers l) (leafTag l) = some (.leaf l) := by
  cases l <;>
  simp [content?, leafMembers, leafTag, List.lookup_cons, required, withDefault, optional_cons_ne,
    optional_cons_self, bool?, visibility?, writeVisibility, choice?_ofString,
    Visibility.lookup_keyword, signatures?, writeSignatures, list?_map Signature.read?_write,
    list?_map Param.read?_write]

theorem content?_scopeMembers (s : Scope) (v : Value) :
    content? (scopeMembers s ++ [("children", v)]) (scopeTag s) = some (.scope s) := by
  cases s <;>
  simp [content?, scopeMembers, scopeTag, required, optional_cons_ne, optional_cons_self]

theorem notes?_noteMembers (notes : Notes) : notes? (noteMembers notes) = some notes := by
  obtain ⟨comments, location⟩ := notes
  have hlocation : Record.optional (noteMembers ⟨comments, location⟩) "loc" Location.read? =
      some location := by
    have hskip : Record.optional (noteMembers ⟨comments, location⟩) "loc" Location.read? =
        Record.optional (noteMembers ⟨[], location⟩) "loc" Location.read? := by
      cases comments <;> simp [noteMembers, optional_cons_ne]
    rw [hskip]
    cases location with
    | none => rfl
    | some l =>
        have hread : Record.optional (noteMembers ⟨[], some l⟩) "loc" Location.read? =
            (Location.read? l.write).map some := rfl
        rw [hread, Location.read?_write]
        rfl
  have hcomments : Record.withDefault (noteMembers ⟨comments, location⟩) "comments" [] texts? =
      some comments := by
    cases comments with
    | nil => cases location <;> simp [noteMembers, withDefault, List.lookup_cons]
    | cons c cs => simp [noteMembers, withDefault]
  simp [notes?, hcomments, hlocation]

variable {tag : Tag} {members : List (String × Value)} {n : Notes} {v : Value} {field : String}

theorem nodup_keys (h : members.map Prod.fst = tag.fields) :
    ((("kind", v) :: members ++ noteMembers n).map Prod.fst).Nodup := by
  have hnotes : ((noteMembers n).map Prod.fst).Sublist ["comments", "loc"] := by
    obtain ⟨comments, location⟩ := n
    cases comments <;> cases location <;> simp [noteMembers]
  have hall : ("kind" :: tag.fields ++ ["comments", "loc"]).Nodup := by
    cases tag <;> simp [Tag.fields]
  apply List.Nodup.sublist _ hall
  simpa [h] using hnotes

theorem lookup_field (h : members.map Prod.fst = tag.fields) (hf : field ∈ tag.fields) :
    (("kind", v) :: members ++ noteMembers n).lookup field = members.lookup field := by
  have hkind : "kind" ∉ tag.fields := by cases tag <;> simp [Tag.fields]
  have hne : (field == "kind") = false := by
    rw [beq_eq_false_iff_ne]
    rintro rfl
    exact hkind hf
  have hsome : (members.lookup field).isSome = true := by
    rw [← h, List.mem_map] at hf
    obtain ⟨m, hm, rfl⟩ := hf
    simpa using ⟨m.2, hm⟩
  rw [List.cons_append, List.lookup_cons, hne]
  simp [List.lookup_append, Option.or_of_isSome hsome]

theorem lookup_note (h : members.map Prod.fst = tag.fields) (hf : field ∈ ["comments", "loc"]) :
    (("kind", v) :: members ++ noteMembers n).lookup field = (noteMembers n).lookup field := by
  have hnone : members.lookup field = none := by
    rw [List.lookup_eq_none_iff]
    intro m hm
    have hm' : m.1 ∈ tag.fields := h ▸ List.mem_map_of_mem hm
    rw [bne_iff_ne]
    rintro rfl
    simp only [List.mem_cons, List.not_mem_nil, or_false] at hf
    rcases hf with hf | hf
    all_goals rw [hf] at hm'; cases tag <;> simp [Tag.fields] at hm'
  have hne : (field == "kind") = false := by
    simp only [List.mem_cons, List.not_mem_nil, or_false] at hf
    rcases hf with rfl | rfl <;> rfl
  rw [List.cons_append, List.lookup_cons, hne]
  simp [List.lookup_append, hnone]

theorem content?_congr {r r' : Record} (h : ∀ field ∈ tag.fields, r.lookup field = r'.lookup field) :
    content? r tag = content? r' tag := by
  cases tag <;> simp [Tag.fields] at h <;> simp [content?, required, withDefault, Record.optional, h]

theorem notes?_congr {r r' : Record}
    (h : ∀ field ∈ ["comments", "loc"], r.lookup field = r'.lookup field) : notes? r = notes? r' := by
  simp at h
  simp [notes?, withDefault, Record.optional, h]

theorem head?_written (members : List (String × Value)) (tag : Tag) (n : Notes) {c : Content}
    (h : members.map Prod.fst = tag.fields) (hc : content? members tag = some c) :
    head? ((("kind", .ofString tag.name) :: members ++ noteMembers n).map
      fun (key, v) => (some key, v)) = some (c, n) := by
  have hnodup := nodup_keys (v := .ofString tag.name) (n := n) h
  have hcontent := (content?_congr fun field hf =>
    (lookup_filter hf).trans (lookup_field (v := .ofString tag.name) (n := n) h hf)).trans hc
  have hnotes := (notes?_congr fun field hf =>
    (lookup_filter hf).trans (lookup_note (v := .ofString tag.name) (n := n) h hf)).trans
      (notes?_noteMembers n)
  have htag : Record.required ((("kind", .ofString tag.name) :: members ++ noteMembers n).filter
      (·.1 ∈ ["kind"])) "kind" tag? = some tag := by
    rw [required, lookup_filter (by simp)]
    simp [tag?_name]
  simp only [head?, ofMembers?_eq hnodup, Option.bind_eq_bind, Option.bind_some, htag, hnotes, hcontent]
  rfl

theorem childrenOf?_written (members : List (String × Value)) {items : List Value}
    (h : members.lookup "children" = some (.array items)) :
    childrenOf? (members.map fun (key, v) => (some key, v)) = readItems? items := by
  induction members with
  | nil => cases h
  | cons m ms ih =>
      obtain ⟨key, v⟩ := m
      by_cases hkey : key = "children"
      · subst hkey
        rw [List.lookup_cons_self] at h
        cases h
        simp [childrenOf?]
      · have hne : ("children" == key) = false := by simpa using Ne.symm hkey
        rw [List.lookup_cons, hne] at h
        rw [List.map_cons, childrenOf?.eq_def]
        exact (if_neg (by simpa using hkey)).trans (ih h)

theorem readItems?_writeItems {items : List Item} (h : ∀ i ∈ items, Item.read? i.write = some i) :
    readItems? (writeItems items) = some items := by
  induction items with
  | nil => rfl
  | cons i is ih =>
      have hrest := ih fun j hj => h j (by simp [hj])
      simp [writeItems, readItems?, h i, hrest]

theorem Item.read?_write (i : Item) : Item.read? i.write = some i := by
  induction i using Item.induction with
  | tree n items ih =>
      have hhead := head?_written [("children", .array (writeItems items))] .tree n rfl rfl
      have hchildren := childrenOf?_written (("kind", .ofString Tag.tree.name) ::
        [("children", .array (writeItems items))] ++ noteMembers n) rfl
      rw [readItems?_writeItems ih] at hchildren
      simp only [Item.write, writeTagged, ofMembers, Item.read?, hhead, hchildren]
      rfl
  | scope s n items ih =>
      have hhead := head?_written _ (scopeTag s) n (keys_scopeMembers s (.array (writeItems items)))
        (content?_scopeMembers s _)
      have hchildren := childrenOf?_written (("kind", .ofString (scopeTag s).name) ::
        (scopeMembers s ++ [("children", .array (writeItems items))]) ++ noteMembers n)
        (by cases s <;> rfl)
      rw [readItems?_writeItems ih] at hchildren
      simp only [Item.write, writeTagged, ofMembers, Item.read?, hhead, hchildren]
      rfl
  | leaf l n =>
      have hhead := head?_written _ (leafTag l) n (keys_leafMembers l) (content?_leafMembers l)
      simp only [Item.write, writeTagged, ofMembers, Item.read?, hhead]
      rfl

theorem written_leafMembers (l : Leaf) : ∀ m ∈ leafMembers l, Written m.2 := by
  cases l <;>
  simp [leafMembers, writeVisibility, writeSignatures, Written.map Param.written_write,
    Written.map Signature.written_write]

theorem written_scopeMembers (s : Scope) : ∀ m ∈ scopeMembers s, Written m.2 := by
  cases s <;> simp [scopeMembers]

theorem written_noteMembers (n : Notes) : ∀ m ∈ noteMembers n, Written m.2 := by
  obtain ⟨comments, location⟩ := n
  cases comments <;> cases location <;> simp [noteMembers]

@[simp] theorem writeItems_eq (items : List Item) : writeItems items = items.map Item.write := by
  induction items with
  | nil => rfl
  | cons i is ih => rw [writeItems, ih, List.map_cons]

theorem exists_members (i : Item) :
    ∃ members, i.write = .ofMembers members ∧ ∀ m ∈ members, Written m.2 := by
  have hitem (tag : Tag) (members : List (String × Value)) (n : Notes)
      (h : ∀ m ∈ members, Written m.2) :
      ∃ members', writeTagged tag members n = .ofMembers members' ∧ ∀ m ∈ members', Written m.2 := by
    exists ("kind", .ofString tag.name) :: members ++ noteMembers n
    constructor
    · rfl
    · intro m hm
      simp only [List.cons_append, List.mem_cons, List.mem_append] at hm
      rcases hm with rfl | hm | hm
      · exact .text _
      · exact h m hm
      · exact written_noteMembers n m hm
  have hitems {items : List Item}
      (ih : ∀ i ∈ items, ∃ members, i.write = .ofMembers members ∧ ∀ m ∈ members, Written m.2) :
      Written (.array (writeItems items)) := by
    rw [writeItems_eq]
    apply Written.array
    intro v hv
    obtain ⟨i, hi, rfl⟩ := List.mem_map.mp hv
    obtain ⟨members, he, hm⟩ := ih i hi
    rw [he]
    exact .object members hm
  induction i using Item.induction with
  | tree n items ih =>
      apply hitem
      simpa using hitems ih
  | scope s n items ih =>
      apply hitem
      intro m hm
      rw [List.mem_append, List.mem_singleton] at hm
      rcases hm with hm | rfl
      · exact written_scopeMembers s m hm
      · exact hitems ih
  | leaf l n => exact hitem _ _ n (written_leafMembers l)

theorem written_write (items : List Item) : Written (write items) := by
  rw [write, writeItems_eq]
  apply Written.map
  intro i
  obtain ⟨members, he, hm⟩ := exists_members i
  rw [he]
  exact .object members hm

theorem isAdmissibleItem_of_written {v : Value} (hv : Written v) (h : 1 + v.depth ≤ maxDepth) :
    isAdmissibleItem v = true := by
  cases v with
  | object members =>
      rw [isAdmissibleItem, List.all_eq_true]
      intro m hm
      obtain ⟨hkey, hv⟩ := written_object_iff.mp hv m hm
      have hdepth := depth_lt_of_mem_object hm
      have hroom : 2 + m.2.depth ≤ maxDepth := by omega
      simp [isAdmissible, hkey, hv.isRepresentable, hroom]
  | _ => simp [isAdmissibleItem, isAdmissible, hv.isRepresentable, h]

theorem read?_of_readItems? {vs : List Value} {items : List Item} (hv : Written (.array vs))
    (hd : (Value.array vs).depth ≤ maxDepth) (h : readItems? vs = some items) :
    read? (.array vs) = some items := by
  have hall : vs.all isAdmissibleItem = true := by
    rw [List.all_eq_true]
    intro v hmem
    have hdepth := depth_lt_of_mem_items hmem
    exact isAdmissibleItem_of_written (written_array_iff.mp hv v hmem) (by omega)
  simp only [read?, hall]
  exact h

theorem read?_write (items : List Item) (h : (write items).depth ≤ maxDepth) :
    read? (write items) = some items :=
  read?_of_readItems? (written_write items) h (readItems?_writeItems fun i _ => i.read?_write)

/-- A document that is not nested too deeply is read back from both of its texts, and is written with
the same text again. -/
theorem write_round_trip (items : List Item) (h : (write items).depth ≤ maxDepth) :
    (parse? (write items).compact = some items ∧ parse? (write items).pretty = some items) ∧
      (parse? (write items).compact).map (fun is => (write is).compact) =
        some (write items).compact ∧
      (parse? (write items).pretty).map (fun is => (write is).pretty) = some (write items).pretty := by
  have hcompact : parse? (write items).compact = some items := by
    rw [parse?, (written_write items).parse?_compact]
    exact read?_write items h
  have hpretty : parse? (write items).pretty = some items := by
    rw [parse?, (written_write items).parse?_pretty]
    exact read?_write items h
  simp [hcompact, hpretty]

theorem write_round_trip_class :
    let items : List Item :=
      [.scope (.classNamed "Löwe\n\"\u0001🦁" (some "A")) ⟨["# \\"], some ⟨none, 0, 1, 2, -1⟩⟩
        [.leaf (.method ⟨"m", [⟨.rest, "xs", none, []⟩], true, .pub, [⟨[⟨"xs", "T"⟩], none, true, false,
            false, false, []⟩]⟩) {},
          .tree {} [.leaf (.mixin ⟨.extension, ["A", "B"]⟩) {}]]]
    (write items).depth ≤ maxDepth ∧ parse? (write items).compact = some items ∧
      parse? (write items).pretty = some items :=
  ⟨by decide, (write_round_trip _ (by decide)).1⟩

end Document

end Reconcile
