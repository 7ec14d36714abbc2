import Reconcile.Forest.Outline
import Reconcile.Layout
import Reconcile.Layout.Phrase

namespace Reconcile.Layout

def commentLines (level : Nat) (comment : String) : List Line :=
  let lines := if comment = "" then [[]] else splitLines comment.toList
  lines.map fun line => .code level (if line.isEmpty then "#" else "# " ++ String.ofList line)

def noteLines (style : Style) (level : Nat) (notes : Notes) : List Line :=
  notes.comments.flatMap (commentLines level) ++
    match notes.location with
    | some location =>
        if style.showLocations then [.code level ("# " ++ location.phrase)] else []
    | none => []

/-- In a group the visibility has been announced already. -/
def visibilityPhrase (grouped : Bool) (v : Visibility) : String :=
  if grouped || v = .pub then "" else v.keyword ++ " "

/-- Parameters stand on lines of their own as soon as one of them has a comment. -/
def paramLines (level : Nat) : List Param → List Line
  | [] => []
  | p :: ps => .code level (p.linePhrase ps.isEmpty) :: paramLines level ps

def methodLines (level : Nat) (grouped : Bool) (m : Method) : List Line :=
  let head := visibilityPhrase grouped m.visibility ++ "def " ++
    (if m.isSingleton then "self." else "") ++ m.name
  m.signatures.map (fun s => .code level s.phrase) ++
    if m.params.isEmpty then [.code level (head ++ "; end")]
    else if m.params.all fun p => p.comments.isEmpty then
      [.code level (head ++ "(" ++ commaSeparated (m.params.map Param.phrase) ++ "); end")]
    else
      .code level (head ++ "(") :: paramLines (level + 1) m.params ++ [.code level "); end"]

def attributeLines (level : Nat) (grouped : Bool) (a : Attribute) : List Line :=
  a.signatures.map (fun s => .code level s.phrase) ++
    [.code level (visibilityPhrase grouped a.visibility ++ a.phrase)]

def enumerationLines (level : Nat) (names : List String) : List Line :=
  if names.isEmpty then [.code level "enums do end"]
  else
    .code level "enums do" :: names.map (fun name => .code (level + 1) (name ++ " = new")) ++
      [.code level "end"]

def leafLines (level : Nat) (grouped : Bool) : Leaf → List Line
  | .constant name value => [.code level (name ++ " = " ++ value)]
  | .method m => methodLines level grouped m
  | .attribute a => attributeLines level grouped a
  | .mixin m => [.code level m.phrase]
  | .marker v => [.code level v.keyword]
  | .field f => [.code level f.phrase]
  | .enumeration names => enumerationLines level names
  | .helper name => [.code level (name ++ "!")]
  | .typeMember name value => [.code level (name ++ " = " ++ value)]

def sideHeader (closed : Bool) : Outline → String
  | .node _ (.scope s) _ _ => if closed then s.header ++ "; end" else s.header
  | _ => ""

def isOneLineLeaf : Leaf → Bool
  | .method m => m.signatures.isEmpty && m.params.all fun p => p.comments.isEmpty
  | .attribute a => a.signatures.isEmpty
  | .enumeration names => names.isEmpty
  | _ => true

/-- Whether nothing but one line is laid out. Only such neighbours stand without a blank line. -/
def isOneLine : Outline → Bool
  | .node _ (.leaf l) notes _ => notes.comments.isEmpty && isOneLineLeaf l
  | .node _ _ notes children => notes.comments.isEmpty && children.isEmpty
  | .conflict .. => false

def separator (o : Outline) : List Outline → List Line
  | [] => []
  | next :: _ => if isOneLine o && isOneLine next then [] else [.blank]

mutual

/-- The lines of a node at a level of nesting. `grouped` tells whether it is in a visibility group
of its scope. -/
def lines (style : Style) (level : Nat) (grouped : Bool) : Outline → List Line
  | .node _ content notes children =>
      noteLines style level notes ++
        match content with
        | .tree | .group _ => siblingLines style level grouped children
        | .visibilityGroup v =>
            (if v = .pub then []
              else .code level v.keyword :: if children.isEmpty then [] else [.blank]) ++
              siblingLines style level true children
        | .scope s =>
            if children.isEmpty then [.code level (s.header ++ "; end")]
            else
              .code level s.header :: siblingLines style (level + 1) false children ++
                [.code level "end"]
        | .leaf l => leafLines level grouped l
  | .conflict _ .declarations labels _ left right =>
      .marker ("<<<<<<< " ++ labels.left) :: bodyLines style level grouped left ++
        .marker "=======" :: bodyLines style level grouped right ++
        [.marker (">>>>>>> " ++ labels.right)]
  | .conflict _ .headers labels _ left right =>
      let closed := left.children.isEmpty
      .marker ("<<<<<<< " ++ labels.left) :: noteLines style level left.notes ++
        .code level (sideHeader closed left) :: .marker "=======" ::
        noteLines style level right.notes ++
        .code level (sideHeader closed right) :: .marker (">>>>>>> " ++ labels.right) ::
        if closed then []
        else bodyLines style (level + 1) false left ++ [.code level "end"]

def bodyLines (style : Style) (level : Nat) (grouped : Bool) : Outline → List Line
  | .node _ _ _ children => siblingLines style level grouped children
  | .conflict .. => []

def siblingLines (style : Style) (level : Nat) (grouped : Bool) : List Outline → List Line
  | [] => []
  | o :: os => lines style level grouped o ++ separator o os ++ siblingLines style level grouped os

end

end Reconcile.Layout
