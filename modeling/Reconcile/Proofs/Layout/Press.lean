import Reconcile.Proofs.Layout.Indentation

namespace Reconcile.Layout

/-- A printer with what it has written. It changes its level and whether it is in a visibility group on its
way into a body or a group, and puts them back on its way out. -/
structure Press where
  written : List Line := []
  level : Nat := 0
  grouped : Bool := false

namespace Press

variable {style : Style} (p : Press)

def put (l : Line) : Press := { p with written := p.written ++ [l] }

def code (text : String) : Press := p.put (.code p.level text)

def codes (texts : List String) : Press := texts.foldl code p

def deepen : Press := { p with level := p.level + 1 }

def raise : Press := { p with level := p.level - 1 }

def printNotes (style : Style) (n : Notes) : Press := p.codes (noteTexts style n)

def printParams (p : Press) : List Param → Press
  | [] => p
  | q :: qs => (p.code (q.linePhrase qs.isEmpty)).printParams qs

def printMethod (m : Method) : Press :=
  let head := visibilityPhrase p.grouped m.visibility ++ "def " ++
    (if m.isSingleton then "self." else "") ++ m.name
  let p := p.codes (m.signatures.map Signature.phrase)
  if m.params.isEmpty then p.code (head ++ "; end")
  else if m.params.all fun q => q.comments.isEmpty then
    p.code (head ++ "(" ++ commaSeparated (m.params.map Param.phrase) ++ "); end")
  else (((p.code (head ++ "(")).deepen.printParams m.params).raise).code "); end"

def printAttribute (a : Attribute) : Press :=
  (p.codes (a.signatures.map Signature.phrase)).code
    (visibilityPhrase p.grouped a.visibility ++ a.phrase)

def printEnumeration (names : List String) : Press :=
  if names.isEmpty then p.code "enums do end"
  else (((p.code "enums do").deepen.codes (names.map (· ++ " = new"))).raise).code "end"

def printLeaf : Leaf → Press
  | .constant name value => p.code (name ++ " = " ++ value)
  | .method m => p.printMethod m
  | .attribute a => p.printAttribute a
  | .mixin m => p.code m.phrase
  | .marker v => p.code v.keyword
  | .field f => p.code f.phrase
  | .enumeration names => p.printEnumeration names
  | .helper name => p.code (name ++ "!")
  | .typeMember name value => p.code (name ++ " = " ++ value)

def body (print : Press → Press) : Press :=
  let p' := print { p.deepen with grouped := false }
  { p'.raise with grouped := p.grouped }

def group (print : Press → Press) : Press :=
  let p' := print { p with grouped := true }
  { p' with grouped := p.grouped }

def blankAfter (o : Outline) : Option Outline → Press
  | none => p
  | some previous => if isOneLine previous && isOneLine o then p else p.put .blank

mutual

def visit (style : Style) : Outline → Press → Press
  | .node _ content notes children, p =>
      let p := p.printNotes style notes
      match content with
      | .tree | .group _ => visitAll style none children p
      | .visibilityGroup v =>
          let p :=
            if v = .pub then p
            else if children.isEmpty then p.code v.keyword
            else (p.code v.keyword).put .blank
          p.group (visitAll style none children)
      | .scope s =>
          if children.isEmpty then p.code (s.header ++ "; end")
          else ((p.code s.header).body (visitAll style none children)).code "end"
      | .leaf l => p.printLeaf l
  | .conflict _ .declarations labels _ left right, p =>
      let p := visitBelow style left (p.put (.marker ("<<<<<<< " ++ labels.left)))
      let p := visitBelow style right (p.put (.marker "======="))
      p.put (.marker (">>>>>>> " ++ labels.right))
  | .conflict _ .headers labels _ left right, p =>
      let closed := left.children.isEmpty
      let p := (p.put (.marker ("<<<<<<< " ++ labels.left))).printNotes style left.notes
      let p := (p.code (sideHeader closed left)).put (.marker "=======")
      let p := (p.printNotes style right.notes).code (sideHeader closed right)
      let p := p.put (.marker (">>>>>>> " ++ labels.right))
      if closed then p else (p.body (visitBelow style left)).code "end"

def visitBelow (style : Style) : Outline → Press → Press
  | .node _ _ _ children, p => visitAll style none children p
  | .conflict .., p => p

def visitAll (style : Style) (previous : Option Outline) : List Outline → Press → Press
  | [], p => p
  | o :: os, p => visitAll style (some o) os (visit style o (p.blankAfter o previous))

end

def append (ls : List Line) : Press := { p with written := p.written ++ ls }

@[simp] theorem append_append (ls ls' : List Line) : (p.append ls).append ls' = p.append (ls ++ ls') := by
  simp [append]

@[simp] theorem level_append (ls : List Line) : (p.append ls).level = p.level := rfl

@[simp] theorem grouped_append (ls : List Line) : (p.append ls).grouped = p.grouped := rfl

@[simp] theorem level_deepen : p.deepen.level = p.level + 1 := rfl

@[simp] theorem put_eq (l : Line) : p.put l = p.append [l] := rfl

@[simp] theorem code_eq (text : String) : p.code text = p.append [.code p.level text] := rfl

@[simp] theorem append_nil : p.append [] = p := by simp [append]

@[simp] theorem codes_eq (texts : List String) :
    p.codes texts = p.append (texts.map (.code p.level)) := by
  induction texts generalizing p with
  | nil => simp [codes]
  | cons t ts ih =>
      have hcons : p.codes (t :: ts) = (p.code t).codes ts := rfl
      rw [hcons, ih]
      simp

@[simp] theorem printNotes_eq (n : Notes) : p.printNotes style n = p.append (noteLines style p.level n) := by
  rw [printNotes, codes_eq, noteLines_eq]

@[simp] theorem printParams_eq (qs : List Param) : p.printParams qs = p.append (paramLines p.level qs) := by
  induction qs generalizing p with
  | nil => simp [printParams, paramLines]
  | cons q qs ih => simp [printParams, paramLines, ih]

@[simp] theorem raise_append (ls : List Line) : (p.deepen.append ls).raise = p.append ls := rfl

theorem printLeaf_eq (l : Leaf) : p.printLeaf l = p.append (leafLines p.level p.grouped l) := by
  cases l with
  | method m =>
      simp only [printLeaf, printMethod, leafLines, methodLines, codes_eq, List.map_map]
      split
      · simp [Function.comp_def]
      · split <;> simp [Function.comp_def]
  | «attribute» a => simp [printLeaf, printAttribute, leafLines, attributeLines, Function.comp_def]
  | enumeration names =>
      simp only [printLeaf, printEnumeration, leafLines, enumerationLines]
      split <;> simp [Function.comp_def]
  | _ => rfl

/-- Whatever is printed in a body, the press comes out of it as it went in. -/
theorem body_eq {print : Press → Press} {F : Nat → Bool → List Line}
    (h : ∀ p, print p = p.append (F p.level p.grouped)) :
    p.body print = p.append (F (p.level + 1) false) := by
  rw [body, h]
  rfl

theorem group_eq {print : Press → Press} {F : Nat → Bool → List Line}
    (h : ∀ p, print p = p.append (F p.level p.grouped)) :
    p.group print = p.append (F p.level true) := by
  rw [group, h]
  rfl

theorem visitAll_eq {os : List Outline} (h : ∀ o ∈ os, ∀ p, visit style o p =
      p.append (lines style p.level p.grouped o)) (previous : Option Outline) (p : Press) :
    visitAll style previous os p = p.append ((previous.elim [] fun o => separator o os) ++
      siblingLines style p.level p.grouped os) := by
  induction os generalizing previous p with
  | nil => cases previous <;> simp [visitAll, separator, siblingLines]
  | cons o os ih =>
      have hblank : p.blankAfter o previous = p.append (previous.elim [] fun q => separator q (o :: os)) := by
        cases previous with
        | none => simp [blankAfter]
        | some q =>
            simp only [blankAfter, separator, Option.elim_some]
            split <;> simp
      rw [visitAll, hblank, h o (by simp), ih fun x hx => h x (by simp [hx])]
      simp [siblingLines]

theorem visit_eq (o : Outline) (p : Press) :
    visit style o p = p.append (lines style p.level p.grouped o) ∧
      visitBelow style o p = p.append (bodyLines style p.level p.grouped o) := by
  induction o generalizing p with
  | node h c n cs ih =>
      have hcs (p : Press) : visitAll style none cs p =
          p.append (siblingLines style p.level p.grouped cs) :=
        visitAll_eq (fun x hx p => (ih x hx p).1) none p
      have hbody (p : Press) : p.body (visitAll style none cs) =
          p.append (siblingLines style (p.level + 1) false cs) :=
        p.body_eq (F := fun level grouped => siblingLines style level grouped cs) hcs
      have hgroup (p : Press) : p.group (visitAll style none cs) =
          p.append (siblingLines style p.level true cs) :=
        p.group_eq (F := fun level grouped => siblingLines style level grouped cs) hcs
      refine ⟨?_, hcs p⟩
      cases c with
      | tree | group => simp [visit, lines, hcs]
      | visibilityGroup v =>
          simp only [visit, lines, printNotes_eq, hgroup]
          split
          · simp
          · split <;> simp
      | scope s =>
          simp only [visit, lines, printNotes_eq]
          split
          · simp
          · simp [hbody]
      | leaf l => simp [visit, lines, printLeaf_eq]
  | conflict h form labels n l r ihl ihr =>
      refine ⟨?_, by simp [visitBelow, bodyLines]⟩
      cases form with
      | declarations => simp [visit, lines, (ihl _).2, (ihr _).2]
      | headers =>
          have hbody (p : Press) : p.body (visitBelow style l) =
              p.append (bodyLines style (p.level + 1) false l) :=
            p.body_eq (F := fun level grouped => bodyLines style level grouped l) fun p => (ihl p).2
          simp only [visit, lines_headers, printNotes_eq]
          split
          · simp
          · simp [hbody]

end Press

end Reconcile.Layout
