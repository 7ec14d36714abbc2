import Reconcile.Document
import Reconcile.Json.Parser
import Reconcile.Json.Record

namespace Reconcile

open Json (Value Record)

def Location.read? (v : Value) : Option Location := do
  let r ← v.record? ["file", "begin_line", "begin_column", "end_line", "end_column"]
  return {
    file := ← r.optional "file" Value.text?
    beginLine := ← r.withDefault "begin_line" 0 Value.word?
    beginColumn := ← r.withDefault "begin_column" 0 Value.word?
    endLine := ← r.withDefault "end_line" 0 Value.word?
    endColumn := ← r.withDefault "end_column" 0 Value.word? }

namespace Document

/-- In a document an empty object is as void as `null`. -/
def isVoid : Value → Bool
  | .null | .object [] => true
  | _ => false

def visibility? : Value → Option Visibility := Value.choice? isVoid Visibility.table

end Document

def Param.read? (v : Value) : Option Param := do
  let r ← v.record? ["kind", "name", "default", "comments"]
  return {
    kind := ← r.required "kind" (Value.choice? Document.isVoid ParamKind.table)
    name := ← r.required "name" Value.text?
    fallback := ← r.optional "default" Value.text?
    comments := ← r.withDefault "comments" [] Value.texts? }

def TypedName.read? (v : Value) : Option TypedName := do
  let r ← v.record? ["name", "type"]
  return { name := ← r.required "name" Value.text?, type := ← r.required "type" Value.text? }

def Signature.read? (v : Value) : Option Signature := do
  let r ← v.record?
    ["params", "returns", "abstract", "override", "overridable", "final", "type_params"]
  return {
    params := ← r.withDefault "params" [] (Value.list? TypedName.read?)
    returns := ← r.optional "returns" Value.text?
    isAbstract := ← r.withDefault "abstract" false Value.bool?
    isOverride := ← r.withDefault "override" false Value.bool?
    isOverridable := ← r.withDefault "overridable" false Value.bool?
    isFinal := ← r.withDefault "final" false Value.bool?
    typeParams := ← r.withDefault "type_params" [] Value.texts? }

namespace Document

def signatures? : Value → Option (List Signature) := Value.list? Signature.read?

/-- A tag is given by its name or by its number. -/
def tag? : Value → Option Tag
  | .string (some name) => Tag.all.find? (·.name = name)
  | .number (.natural n) => Tag.all[n]?
  | _ => none

def notes? (r : Record) : Option Notes := do
  return {
    comments := ← r.withDefault "comments" [] Value.texts?
    location := ← r.optional "loc" Location.read? }

def content? (r : Record) : Tag → Option Content
  | .tree => some .tree
  | .moduleNamed => return .scope (.moduleNamed (← r.required "name" Value.text?))
  | .classNamed =>
      return .scope (.classNamed (← r.required "name" Value.text?)
        (← r.optional "superclass" Value.text?))
  | .singleton => some (.scope .singleton)
  | .constant =>
      return .leaf (.constant (← r.required "name" Value.text?)
        (← r.required "value" Value.text?))
  | .method =>
      return .leaf (.method {
        name := ← r.required "name" Value.text?
        params := ← r.withDefault "params" [] (Value.list? Param.read?)
        isSingleton := ← r.withDefault "singleton" false Value.bool?
        visibility := ← r.withDefault "visibility" .pub visibility?
        signatures := ← r.withDefault "sigs" [] signatures? })
  | .attribute kind =>
      return .leaf (.attribute {
        kind
        names := ← r.required "names" Value.texts?
        visibility := ← r.withDefault "visibility" .pub visibility?
        signatures := ← r.withDefault "sigs" [] signatures? })
  | .mixin kind => return .leaf (.mixin { kind, names := ← r.required "names" Value.texts? })
  | .marker => return .leaf (.marker (← r.required "visibility" visibility?))
  | .field kind =>
      return .leaf (.field {
        kind
        name := ← r.required "name" Value.text?
        type := ← r.required "type" Value.text?
        fallback := ← r.optional "default" Value.text? })
  | .enumeration => return .leaf (.enumeration (← r.withDefault "names" [] Value.texts?))
  | .helper => return .leaf (.helper (← r.required "name" Value.text?))
  | .typeMember =>
      return .leaf (.typeMember (← r.required "name" Value.text?)
        (← r.required "value" Value.text?))

def head? (members : List (Json.Text × Value)) : Option (Content × Notes) := do
  let tag ← (← Record.ofMembers? ["kind"] members).required "kind" tag?
  let notes ← notes? (← Record.ofMembers? ["comments", "loc"] members)
  let content ← content? (← Record.ofMembers? tag.fields members) tag
  return (content, notes)

mutual

def Item.read? : Value → Option Item
  | .object members => do
      let (content, notes) ← head? members
      match content with
      | .leaf l => return .leaf l notes
      | .scope s => return .scope s notes (← childrenOf? members)
      | _ => return .tree notes (← childrenOf? members)
  | _ => none

def childrenOf? : List (Json.Text × Value) → Option (List Item)
  | [] => some []
  | (key, v) :: ms =>
      if key = some "children" then
        match v with
        | .array items => readItems? items
        | _ => none
      else childrenOf? ms

def readItems? : List Value → Option (List Item)
  | [] => some []
  | v :: vs => return (← Item.read? v) :: (← readItems? vs)

end

def maxDepth : Nat := 127

/-- Whether a value inside `outer` arrays and objects may be part of a document. -/
def isAdmissible (outer : Nat) (v : Value) : Bool :=
  v.isRepresentable && outer + v.depth ≤ maxDepth

/-- Whether an item at top level may be part of a document. Its location is read at once, so that
only the fields of the location matter. -/
def isAdmissibleItem : Value → Bool
  | .object members =>
      members.all fun (key, v) => key = some "loc" || (key.isSome && isAdmissible 2 v)
  | v => isAdmissible 1 v

def read? : Value → Option (List Item)
  | .array items => do
      guard (items.all isAdmissibleItem)
      readItems? items
  | _ => none

def parse? (text : String) : Option (List Item) := do
  read? (← Json.parse? text)

end Document

end Reconcile
