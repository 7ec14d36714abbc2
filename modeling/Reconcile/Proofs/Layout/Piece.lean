import Reconcile.Normal.Nesting
import Reconcile.Proofs.Layout.Unbroken
import Reconcile.Proofs.Normal.Rework

namespace Reconcile

def Leaf.visibility? (l : Leaf) : Option Visibility := (Kind.plain (.leaf l)).visibility?

namespace Layout

inductive Piece where
  | line (l : Line)
  | opening (l : Line)
  | closing (l : Line)
  | member (leaf : Leaf) (above : List Line) (head : Line) (below : List Line)

def Piece.lines : Piece → List Line
  | line l | opening l | closing l => [l]
  | member _ above head below => above ++ head :: below

def methodPiece (level : Nat) (grouped : Bool) (m : Method) : Piece :=
  let above := m.signatures.map fun s => .code level s.phrase
  let head := visibilityPhrase grouped m.visibility ++ "def " ++
    (if m.isSingleton then "self." else "") ++ m.name
  if m.params.isEmpty then .member (.method m) above (.code level (head ++ "; end")) []
  else if m.params.all fun p => p.comments.isEmpty then
    .member (.method m) above
      (.code level (head ++ "(" ++ commaSeparated (m.params.map Param.phrase) ++ "); end")) []
  else
    .member (.method m) above (.code level (head ++ "("))
      (paramLines (level + 1) m.params ++ [.code level "); end"])

def attributePiece (level : Nat) (grouped : Bool) (a : Attribute) : Piece :=
  .member (.attribute a) (a.signatures.map fun s => .code level s.phrase)
    (.code level (visibilityPhrase grouped a.visibility ++ a.phrase)) []

def leafPieces (level : Nat) (grouped : Bool) : Leaf → List Piece
  | .method m => [methodPiece level grouped m]
  | .attribute a => [attributePiece level grouped a]
  | l => (leafLines level grouped l).map .line

mutual

def pieces (style : Style) (level : Nat) (grouped : Bool) : Outline → List Piece
  | .node _ content notes children =>
      (noteLines style level notes).map .line ++
        match content with
        | .tree | .group _ => siblingPieces style level grouped children
        | .visibilityGroup v =>
            (if v = .pub then []
              else .line (.code level v.keyword) ::
                if children.isEmpty then [] else [.line .blank]) ++
              siblingPieces style level true children
        | .scope s =>
            if children.isEmpty then [.line (.code level (s.header ++ "; end"))]
            else
              .opening (.code level s.header) :: siblingPieces style (level + 1) false children ++
                [.closing (.code level "end")]
        | .leaf l => leafPieces level grouped l
  | .conflict h form labels notes left right =>
      (lines style level grouped (.conflict h form labels notes left right)).map .line

def siblingPieces (style : Style) (level : Nat) (grouped : Bool) : List Outline → List Piece
  | [] => []
  | o :: os =>
      pieces style level grouped o ++ (separator o os).map .line ++ siblingPieces style level grouped os

end

def sigilLines (style : Style) (o : Outline) : List Line :=
  match style.sigil with
  | some sigil => .code 0 ("# typed: " ++ sigil) :: if o.children.isEmpty then [] else [.blank]
  | none => []

def treePieces (style : Style) (o : Outline) : List Piece :=
  (sigilLines style o).map .line ++ pieces style 0 false o

variable {style : Style} {level : Nat} {grouped : Bool} {l : Leaf} {o : Outline}

theorem flatMap_lines_map (ls : List Line) : (ls.map Piece.line).flatMap Piece.lines = ls := by
  rw [List.flatMap_map]
  exact List.flatMap_singleton' ls

theorem lines_methodPiece (m : Method) :
    (methodPiece level grouped m).lines = methodLines level grouped m := by
  simp only [methodPiece, methodLines]
  split
  · rfl
  · split <;> rfl

theorem flatMap_lines_leafPieces (l : Leaf) :
    (leafPieces level grouped l).flatMap Piece.lines = leafLines level grouped l := by
  unfold leafPieces
  split
  · simp [leafLines, lines_methodPiece]
  · simp [leafLines, attributePiece, attributeLines, Piece.lines]
  · exact flatMap_lines_map _

theorem flatMap_lines_siblingPieces {os : List Outline}
    (h : ∀ o ∈ os, ∀ level grouped,
      (pieces style level grouped o).flatMap Piece.lines = lines style level grouped o) :
    (siblingPieces style level grouped os).flatMap Piece.lines =
      siblingLines style level grouped os := by
  induction os with
  | nil => rfl
  | cons o os ih =>
      rw [siblingPieces, siblingLines, List.flatMap_append, List.flatMap_append,
        h o (by simp) level grouped, flatMap_lines_map, ih fun x hx => h x (by simp [hx])]

theorem flatMap_lines_pieces (o : Outline) (level : Nat) (grouped : Bool) :
    (pieces style level grouped o).flatMap Piece.lines = lines style level grouped o := by
  induction o generalizing level grouped with
  | conflict => exact flatMap_lines_map _
  | node h c n cs ih =>
      have hcs (level : Nat) (grouped : Bool) := @flatMap_lines_siblingPieces style level grouped cs ih
      cases c with
      | tree | group =>
          simp only [pieces, lines, List.flatMap_append, flatMap_lines_map, hcs]
      | leaf l =>
          simp only [pieces, lines, List.flatMap_append, flatMap_lines_map, flatMap_lines_leafPieces]
      | visibilityGroup v =>
          simp only [pieces, lines, List.flatMap_append, flatMap_lines_map, hcs]
          by_cases hv : v = .pub <;> by_cases hc : cs.isEmpty = true <;> simp [hv, hc, Piece.lines]
      | scope s =>
          simp only [pieces, lines, List.flatMap_append, flatMap_lines_map]
          by_cases hc : cs.isEmpty = true <;> simp [hc, Piece.lines, hcs]

theorem flatMap_lines_treePieces (o : Outline) :
    (treePieces style o).flatMap Piece.lines = treeLines style o := by
  rw [treePieces, List.flatMap_append, flatMap_lines_map, flatMap_lines_pieces]
  rfl

section Displayed

def displayedNotes (style : Style) (n : Notes) : Notes :=
  if style.showLocations then n else n.unlocated

/-- An outline without handles, and without the locations that a style does not show. -/
def displayed (style : Style) : Outline → Outline :=
  if style.showLocations then Outline.forget else Outline.gist

@[simp] theorem displayed_node (h : Handle) (c : Content) (n : Notes) (cs : List Outline) :
    displayed style (.node h c n cs) =
      .node 0 c (displayedNotes style n) (cs.map (displayed style)) := by
  unfold displayed displayedNotes
  split <;> simp

@[simp] theorem displayed_conflict (h : Handle) (form : ConflictForm) (labels : Labels) (n : Notes)
    (l r : Outline) : displayed style (.conflict h form labels n l r) =
      .conflict 0 form labels (displayedNotes style n) (displayed style l) (displayed style r) := by
  unfold displayed displayedNotes
  split <;> rfl

theorem displayed_rename (φ : Handle → Handle) (o : Outline) :
    displayed style (o.rename φ) = displayed style o := by
  unfold displayed
  split
  · exact o.forget_rename φ
  · exact congrArg Outline.unlocated (o.forget_rename φ)

@[simp] theorem comments_displayedNotes (n : Notes) :
    (displayedNotes style n).comments = n.comments := by
  unfold displayedNotes
  split <;> rfl

@[simp] theorem noteLines_displayedNotes (n : Notes) :
    noteLines style level (displayedNotes style n) = noteLines style level n := by
  unfold displayedNotes
  split
  · rfl
  · next hl =>
      simp only [noteLines, Notes.unlocated, hl]
      cases n.location <;> rfl

@[simp] theorem notes_displayed (o : Outline) :
    (displayed style o).notes = displayedNotes style o.notes := by
  cases o <;> simp [Outline.notes]

@[simp] theorem isEmpty_children_displayed (o : Outline) :
    (displayed style o).children.isEmpty = o.children.isEmpty := by
  cases o <;> simp [Outline.children]

@[simp] theorem sideHeader_displayed (closed : Bool) (o : Outline) :
    sideHeader closed (displayed style o) = sideHeader closed o := by
  cases o with
  | node h c n cs => cases c <;> simp [sideHeader]
  | conflict => simp [sideHeader]

theorem isOneLine_displayed (o : Outline) : isOneLine (displayed style o) = isOneLine o := by
  cases o with
  | node h c n cs => cases c <;> simp [isOneLine]
  | conflict => simp [isOneLine]

theorem separator_displayed (o : Outline) (os : List Outline) :
    separator (displayed style o) (os.map (displayed style)) = separator o os := by
  cases os with
  | nil => rfl
  | cons next os => simp only [List.map_cons, separator, isOneLine_displayed]

theorem siblingLines_displayed {os : List Outline} (h : ∀ o ∈ os, ∀ level grouped,
      lines style level grouped (displayed style o) = lines style level grouped o) :
    siblingLines style level grouped (os.map (displayed style)) =
      siblingLines style level grouped os := by
  induction os with
  | nil => rfl
  | cons o os ih =>
      rw [List.map_cons, siblingLines, siblingLines, h o (by simp), separator_displayed,
        ih fun x hx => h x (by simp [hx])]

theorem lines_displayed (o : Outline) (level : Nat) (grouped : Bool) :
    lines style level grouped (displayed style o) = lines style level grouped o ∧
      bodyLines style level grouped (displayed style o) = bodyLines style level grouped o := by
  induction o generalizing level grouped with
  | node h c n cs ih =>
      have hcs (level : Nat) (grouped : Bool) := @siblingLines_displayed style level grouped cs
        fun x hx level grouped => (ih x hx level grouped).1
      cases c <;> simp [lines, bodyLines, hcs]
  | conflict h form labels n l r ihl ihr =>
      cases form with
      | declarations => simp [lines, bodyLines, (ihl level grouped).2, (ihr level grouped).2]
      | headers => simp [lines, bodyLines, (ihl (level + 1) false).2]

theorem pieces_displayed (o : Outline) (level : Nat) (grouped : Bool) :
    pieces style level grouped (displayed style o) = pieces style level grouped o := by
  have siblings {os : List Outline} (h : ∀ o ∈ os, ∀ level grouped,
      pieces style level grouped (displayed style o) = pieces style level grouped o) (level : Nat)
      (grouped : Bool) : siblingPieces style level grouped (os.map (displayed style)) =
        siblingPieces style level grouped os := by
    induction os with
    | nil => rfl
    | cons o os ih =>
        rw [List.map_cons, siblingPieces, siblingPieces, h o (by simp), separator_displayed,
          ih fun x hx => h x (by simp [hx])]
  induction o generalizing level grouped with
  | node h c n cs ih => cases c <;> simp [pieces, siblings ih]
  | conflict h form labels n l r =>
      have hlines := (@lines_displayed style (.conflict h form labels n l r) level grouped).1
      rw [displayed_conflict] at hlines ⊢
      rw [pieces, pieces, hlines]

theorem treePieces_displayed (o : Outline) :
    treePieces style (displayed style o) = treePieces style o := by
  rw [treePieces, treePieces, pieces_displayed, sigilLines, sigilLines, isEmpty_children_displayed]

theorem treeLines_displayed (o : Outline) :
    treeLines style (displayed style o) = treeLines style o := by
  rw [← flatMap_lines_treePieces, treePieces_displayed, flatMap_lines_treePieces]

theorem treePieces_rename {φ : Handle → Handle} (o : Outline) :
    treePieces style (o.rename φ) = treePieces style o := by
  rw [← treePieces_displayed, displayed_rename, treePieces_displayed]

end Displayed

def announced? : Line → Option Visibility
  | .code _ text => [Visibility.prot, .priv].find? (·.keyword = text)
  | _ => none

def spelled? : Line → Option Visibility
  | .code _ text => Visibility.all.find? fun v => (v.keyword ++ " ").toList.isPrefixOf text.toList
  | _ => none

/-- The methods and attributes of a layout, each with the visibility that it is shown with. `around`
lists what has been announced in the bodies that are open, the innermost first. -/
def shown (around : List Visibility) : List Piece → List (Leaf × Visibility)
  | [] => []
  | .line l :: ps =>
      shown (match announced? l with | some v => v :: around.tail | none => around) ps
  | .opening _ :: ps => shown (.pub :: around) ps
  | .closing _ :: ps => shown around.tail ps
  | .member leaf _ head _ :: ps =>
      (leaf, (spelled? head).getD (around.head?.getD .pub)) :: shown around ps

def Line.isSilent (l : Line) : Bool := (announced? l).isNone

theorem shown_silent {ls : List Line} (h : ∀ l ∈ ls, l.isSilent = true) (around : List Visibility)
    (rest : List Piece) : shown around (ls.map .line ++ rest) = shown around rest := by
  induction ls with
  | nil => rfl
  | cons l ls ih =>
      have hl : announced? l = none := Option.isNone_iff_eq_none.mp (h l (by simp))
      rw [List.map_cons, List.cons_append, shown, hl]
      exact ih fun x hx => h x (by simp [hx])

theorem isSilent_of_mem {c : Char} {text : String} (hc : c ∈ text.toList)
    (hn : ∀ v : Visibility, c ∉ v.keyword.toList) : (Line.code level text).isSilent = true := by
  rw [Line.isSilent, Option.isNone_iff_eq_none, announced?, List.find?_eq_none]
  intro v _ heq
  exact hn v (by rwa [of_decide_eq_true heq])

theorem blank_not_mem (v : Visibility) : ' ' ∉ v.keyword.toList := by
  cases v <;> decide

theorem hash_not_mem (v : Visibility) : '#' ∉ v.keyword.toList := by
  cases v <;> decide

theorem bang_not_mem (v : Visibility) : '!' ∉ v.keyword.toList := by
  cases v <;> decide

theorem isSilent_noteLines (notes : Notes) :
    ∀ l ∈ noteLines style level notes, l.isSilent = true := by
  intro l hl
  obtain ⟨text, rfl, hhash⟩ := exists_note hl
  exact isSilent_of_mem hhash hash_not_mem

theorem isSilent_separator (o : Outline) (os : List Outline) :
    ∀ l ∈ separator o os, l.isSilent = true :=
  fun _ hl => eq_blank_of_mem_separator hl ▸ rfl

theorem isSilent_sigilLines (o : Outline) : ∀ l ∈ sigilLines style o, l.isSilent = true := by
  intro l hl
  unfold sigilLines at hl
  split at hl
  · rcases List.mem_cons.mp hl with rfl | hl
    · exact isSilent_of_mem (c := '#') (by simp) hash_not_mem
    · split at hl
      · cases hl
      · cases List.mem_singleton.mp hl
        rfl
  · cases hl

theorem isSilent_leafLines (hv : l.visibility? = none) (hm : ∀ v, l ≠ .marker v) :
    ∀ line ∈ leafLines level grouped l, line.isSilent = true := by
  intro line hl
  cases l with
  | method | «attribute» => cases hv
  | marker v => exact absurd rfl (hm v)
  | constant | mixin | field | typeMember =>
      cases List.mem_singleton.mp hl
      refine isSilent_of_mem (c := ' ') ?_ blank_not_mem
      simp [Mixin.phrase, Field.phrase]
  | helper =>
      cases List.mem_singleton.mp hl
      exact isSilent_of_mem (c := '!') (by simp) bang_not_mem
  | enumeration names =>
      rw [leafLines, enumerationLines] at hl
      split at hl
      · cases List.mem_singleton.mp hl
        exact isSilent_of_mem (c := ' ') (by simp) blank_not_mem
      · simp only [List.cons_append, List.mem_cons, List.mem_append, List.mem_map,
          List.not_mem_nil, or_false] at hl
        rcases hl with rfl | ⟨name, -, rfl⟩ | rfl
        · exact isSilent_of_mem (c := ' ') (by simp) blank_not_mem
        · exact isSilent_of_mem (c := ' ') (by simp) blank_not_mem
        · rfl

theorem spelled?_of_head {text : String} {c : Char} (ht : text.toList.head? = some c) (hc : c ≠ 'p') :
    spelled? (.code level text) = none := by
  obtain ⟨rest, hrest⟩ := List.head?_eq_some_iff.mp ht
  rw [spelled?, List.find?_eq_none]
  intro v _
  rw [hrest]
  cases v <;> simp [Visibility.keyword, hc.symm]

theorem shown_member (hl : l.visibility?.isSome = true) (v : Visibility) (around : List Visibility)
    (rest : List Piece) : shown (v :: around) (leafPieces level true l ++ rest) =
      (l, v) :: shown (v :: around) rest := by
  cases l with
  | constant | mixin | marker | field | enumeration | helper | typeMember => cases hl
  | «attribute» a =>
      have hhead : spelled? (.code level (visibilityPhrase true a.visibility ++ a.phrase)) = none := by
        refine spelled?_of_head (c := 'a') ?_ (by decide)
        cases hk : a.kind <;> simp [visibilityPhrase, Attribute.phrase, hk, AttributeKind.keyword]
      simp [leafPieces, attributePiece, shown, hhead]
  | method m =>
      have hhead (more : String) : spelled? (.code level (visibilityPhrase true m.visibility ++ "def " ++
          (if m.isSingleton then "self." else "") ++ m.name ++ more)) = none := by
        refine spelled?_of_head (c := 'd') ?_ (by decide)
        simp [visibilityPhrase]
      rw [leafPieces, methodPiece]
      split
      · simp [shown, hhead]
      · split
        · have hlong := hhead ("(" ++ (commaSeparated (m.params.map Param.phrase) ++ "); end"))
          rw [← String.append_assoc, ← String.append_assoc] at hlong
          simp [shown, hlong]
        · simp [shown, hhead]

end Layout

end Reconcile
