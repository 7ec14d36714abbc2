import Mathlib.Data.List.DropRight
import Reconcile.Proofs.Layout.Resolving

namespace Reconcile

namespace Layout

def codePart (line : List Char) : List Char := (line.takeWhile (· ≠ '#')).rdropWhile (· = ' ')

/-- What is code in some lines, without the lines that hold none. -/
def codeOf (lines : List (List Char)) : List (List Char) := (lines.map codePart).filter (!·.isEmpty)

/-- What becomes code when a comment is written as it is: whatever is below its first line. -/
def spilled (comment : String) : List (List Char) := codeOf (textLines comment).tail

@[simp] theorem codeOf_append (xs ys : List (List Char)) :
    codeOf (xs ++ ys) = codeOf xs ++ codeOf ys := by
  simp [codeOf]

theorem codeOf_cons (line : List Char) (lines : List (List Char)) :
    codeOf (line :: lines) = codeOf [line] ++ codeOf lines := codeOf_append [line] lines

theorem codePart_append (line comment : List Char) :
    codePart (line ++ " # ".toList ++ comment) = codePart line := by
  have hcomment : (" # ".toList ++ comment).takeWhile (· ≠ '#') = [' '] := rfl
  rw [codePart, List.append_assoc, List.takeWhile_append, hcomment]
  split
  · next hlength =>
      have hline : line.takeWhile (· ≠ '#') = line :=
        (List.takeWhile_prefix _).eq_of_length hlength
      rw [codePart, hline, List.rdropWhile_concat_pos _ _ _ (by simp)]
  · rfl

theorem exists_splitOn (cs : List Char) : ∃ first rest, ∀ line, '\n' ∉ line →
    (line ++ cs).splitOn '\n' = (line ++ first) :: rest := by
  by_cases hcs : '\n' ∈ cs
  · obtain ⟨first, rest, rfl, hfirst⟩ := List.eq_append_cons_of_mem hcs
    refine ⟨first, rest.splitOn '\n', fun line hline => ?_⟩
    rw [← List.append_assoc, List.splitOn_append_cons_self_of_not_mem (by simp [hline, hfirst])]
  · refine ⟨cs, [], fun line hline => ?_⟩
    rw [List.splitOn_eq_singleton (by simp [hline, hcs])]

/-- A comment that is written behind a text adds the lines that it spills. -/
theorem codeOf_comment (cs : List Char) (comment : String) :
    codeOf ((cs ++ (" # " ++ comment).toList).splitOn '\n') =
      codeOf (cs.splitOn '\n') ++ spilled comment := by
  obtain ⟨first, rest, hcomment⟩ := exists_splitOn comment.toList
  have hspilled : spilled comment = codeOf rest := by
    rw [spilled, textLines, ← List.nil_append comment.toList, hcomment [] (by simp)]
    rfl
  have hline (line : List Char) (hl : '\n' ∉ line) :
      codeOf ((line ++ (" # " ++ comment).toList).splitOn '\n') =
        codeOf (line.splitOn '\n') ++ spilled comment := by
    have hmarked : '\n' ∉ line ++ " # ".toList := by simp [hl]
    have hfirst : codeOf [line ++ " # ".toList ++ first] = codeOf [line] := by
      rw [codeOf, codeOf, List.map_singleton, List.map_singleton, codePart_append]
    rw [String.toList_append, ← List.append_assoc, hcomment _ hmarked, codeOf_cons, hfirst, hspilled,
      List.splitOn_eq_singleton hl]
  -- The comment goes behind the last line of the text, which is the first one from behind.
  by_cases hcs : '\n' ∈ cs
  · obtain ⟨line, above, hrev, hl⟩ := List.eq_append_cons_of_mem (List.mem_reverse.mpr hcs)
    obtain rfl : cs = above.reverse ++ '\n' :: line.reverse := by simpa using congrArg List.reverse hrev
    rw [List.append_assoc, List.cons_append, List.splitOn_append_cons_self, codeOf_append,
      hline line.reverse (by simpa using hl), List.splitOn_append_cons_self, codeOf_append,
      List.append_assoc]
  · exact hline cs hcs

def code (style : Style) (ls : List Line) : List (List Char) :=
  ls.flatMap fun l => codeOf (textLines (l.text style))

@[simp] theorem code_cons (style : Style) (l : Line) (ls : List Line) :
    code style (l :: ls) = codeOf (textLines (l.text style)) ++ code style ls := rfl

@[simp] theorem code_append (style : Style) (ls ls' : List Line) :
    code style (ls ++ ls') = code style ls ++ code style ls' := by
  simp [code]

theorem codeOf_text (style : Style) (ls : List Line) :
    codeOf (textLines (text style ls)) = code style ls := by
  induction ls with
  | nil => rfl
  | cons l ls ih =>
      rw [textLines, toList_text_cons, List.splitOn_append_cons_self, codeOf_append, code_cons, ← ih]
      rfl

/-- A list of lines is another one with some lines added in between. -/
structure Adds (whole base extra : List (List Char)) : Prop where
  sublist : base.Sublist whole
  perm : whole.Perm (base ++ extra)

namespace Adds

variable {whole base extra whole' base' extra' : List (List Char)}

theorem refl (base : List (List Char)) : Adds base base [] :=
  ⟨.refl base, by rw [List.append_nil]⟩

theorem tail (base extra : List (List Char)) : Adds (base ++ extra) base extra :=
  ⟨List.sublist_append_left .., .refl _⟩

theorem append (h : Adds whole base extra) (h' : Adds whole' base' extra') :
    Adds (whole ++ whole') (base ++ base') (extra ++ extra') :=
  ⟨h.sublist.append h'.sublist, (h.perm.append h'.perm).trans (Outline.perm_interchange ..)⟩

theorem before (xs : List (List Char)) (h : Adds whole base extra) :
    Adds (xs ++ whole) (xs ++ base) extra := (refl xs).append h

theorem after (xs : List (List Char)) (h : Adds whole base extra) :
    Adds (whole ++ xs) (base ++ xs) extra := by
  simpa using h.append (refl xs)

theorem eq_iff (h : Adds whole base extra) : whole = base ↔ extra = [] := by
  have hlength := h.perm.length_eq
  rw [List.length_append] at hlength
  constructor
  · rintro rfl
    exact List.length_eq_zero_iff.mp (by omega)
  · rintro rfl
    exact (h.sublist.eq_of_length hlength.symm).symm

end Adds

end Layout

def Notes.muted (n : Notes) : Notes := { n with comments := n.comments.map fun _ => "" }

def Param.muted (p : Param) : Param := { p with comments := p.comments.map fun _ => "" }

theorem Param.isEmpty_comments_muted (p : Param) : p.muted.comments.isEmpty = p.comments.isEmpty :=
  List.isEmpty_map

def Leaf.muted : Leaf → Leaf
  | method m => method { m with params := m.params.map Param.muted }
  | l => l

def Content.muted : Content → Content
  | leaf l => leaf l.muted
  | c => c

open Layout (spilled)

def Param.spills (p : Param) : List (List Char) := p.comments.flatMap spilled

def Leaf.spills : Leaf → List (List Char)
  | method m => m.params.flatMap Param.spills
  | _ => []

namespace Outline

mutual

def muted : Outline → Outline
  | node h c n cs => node h c.muted n.muted (mutedAll cs)
  | conflict h form labels n l r => conflict h form labels n.muted l.muted r.muted

def mutedAll : List Outline → List Outline
  | [] => []
  | o :: os => o.muted :: mutedAll os

end

/-- Two outlines differ in the texts of their comments only. -/
def Alike (o o' : Outline) : Prop := o.muted.forget = o'.muted.forget

mutual

/-- What the comments of all parameters that are laid out spill. -/
def spills : Outline → List (List Char)
  | node _ (.leaf l) _ _ => l.spills
  | node _ _ _ cs => spillsAll cs
  | conflict _ .declarations _ _ l r => l.spillsBelow ++ r.spillsBelow
  | conflict _ .headers _ _ l _ => l.spillsBelow

def spillsBelow : Outline → List (List Char)
  | node _ _ _ cs => spillsAll cs
  | conflict .. => []

def spillsAll : List Outline → List (List Char)
  | [] => []
  | o :: os => o.spills ++ spillsAll os

end

@[simp] theorem mutedAll_eq (os : List Outline) : mutedAll os = os.map muted := by
  induction os with
  | nil => rfl
  | cons o os ih => rw [mutedAll, ih, List.map_cons]

@[simp] theorem muted_node (h : Handle) (c : Content) (n : Notes) (cs : List Outline) :
    (node h c n cs).muted = node h c.muted n.muted (cs.map muted) := by
  rw [muted, mutedAll_eq]

@[simp] theorem muted_conflict (h : Handle) (form : ConflictForm) (labels : Labels) (n : Notes)
    (l r : Outline) : (conflict h form labels n l r).muted =
      conflict h form labels n.muted l.muted r.muted := rfl

theorem spillsAll_of_isEmpty {os : List Outline} (h : os.isEmpty = true) : spillsAll os = [] := by
  rw [List.isEmpty_iff.mp h, spillsAll]

theorem spillsBelow_of_isEmpty (o : Outline) (h : o.children.isEmpty = true) : o.spillsBelow = [] := by
  cases o with
  | node => exact spillsAll_of_isEmpty h
  | conflict => rfl

theorem notes_muted (o : Outline) : o.muted.notes = o.notes.muted := by
  cases o <;> rfl

theorem isEmpty_children_muted (o : Outline) : o.muted.children.isEmpty = o.children.isEmpty := by
  cases o with
  | node h c n cs => rw [muted_node, children, children, List.isEmpty_map]
  | conflict => rfl

end Outline

namespace Layout

variable {style : Style} {level : Nat} {grouped : Bool} {o : Outline}

theorem codeOf_remark {text : String} {rest : List Char} (ht : text.toList = '#' :: rest)
    (hu : Unbroken text) : codeOf (textLines ((Line.code level text).text style)) = [] := by
  have hline : ((Line.code level text).text style).toList =
      List.replicate (level * style.indentWidth.toNat) ' ' ++ '#' :: rest := by
    simp [Line.text, toList_pushn, ht]
  have hbreak : '\n' ∉ ((Line.code level text).text style).toList := by
    rw [Unbroken, ht] at hu
    simpa [hline] using hu
  have hpart : codePart ((Line.code level text).text style).toList = [] := by
    have hspaces : ∀ c ∈ List.replicate (level * style.indentWidth.toNat) ' ', c = ' ' :=
      fun c hc => List.eq_of_mem_replicate hc
    rw [codePart, hline, List.takeWhile_append_of_pos fun c hc => by rw [hspaces c hc]; rfl,
      List.takeWhile_cons_of_neg (by simp), List.append_nil, List.rdropWhile_eq_nil_iff]
    exact fun c hc => decide_eq_true (hspaces c hc)
  rw [textLines, List.splitOn_eq_singleton hbreak, codeOf, List.map_singleton, hpart]
  rfl

theorem code_commentLines (comment : String) : code style (commentLines level comment) = [] := by
  refine List.flatMap_eq_nil_iff.mpr fun l hl => ?_
  have hu := unbroken_commentLines comment l hl
  obtain ⟨line, -, rfl⟩ := List.mem_map.mp hl
  have htext : ∃ rest, (if line.isEmpty then "#" else "# " ++ String.ofList line).toList =
      '#' :: rest := by
    split
    · exact ⟨[], rfl⟩
    · exact ⟨' ' :: line, by simp⟩
  obtain ⟨rest, ht⟩ := htext
  exact codeOf_remark ht hu

theorem code_noteLines (n : Notes) :
    code style (noteLines style level n) = code style (noteLines style level n.muted) := by
  have hcomments (comments : List String) :
      code style (comments.flatMap (commentLines level)) = [] := by
    induction comments with
    | nil => rfl
    | cons c cs ih => rw [List.flatMap_cons, code_append, code_commentLines, ih, List.append_nil]
  rw [noteLines, noteLines, code_append, code_append, hcomments, hcomments]
  rfl

theorem codeOf_comments (cs : List Char) (comments : List String) :
    codeOf ((cs ++ (String.join (comments.map (" # " ++ ·))).toList).splitOn '\n') =
      codeOf (cs.splitOn '\n') ++ comments.flatMap spilled := by
  induction comments generalizing cs with
  | nil => simp
  | cons c comments ih =>
      have hjoin : cs ++ (String.join ((c :: comments).map (" # " ++ ·))).toList =
          cs ++ (" # " ++ c).toList ++ (String.join (comments.map (" # " ++ ·))).toList := by
        simp
      rw [hjoin, ih, codeOf_comment, List.flatMap_cons, List.append_assoc]

theorem codeOf_linePhrase (p : Param) (last : Bool) :
    codeOf (textLines ((Line.code level (p.linePhrase last)).text style)) =
      codeOf (textLines ((Line.code level (p.muted.linePhrase last)).text style)) ++ p.spills := by
  have hphrase : p.muted.phrase = p.phrase := rfl
  have hmuted : p.muted.spills = [] := by
    simp [Param.spills, Param.muted, spilled, textLines, codeOf]
  have hline (q : Param) : codeOf (textLines ((Line.code level (q.linePhrase last)).text style)) =
      codeOf ((("".pushn ' ' (level * style.indentWidth.toNat) ++
        (q.phrase ++ if last then "" else ",")).toList).splitOn '\n') ++ q.spills := by
    rw [Param.spills, ← codeOf_comments, textLines, ← String.toList_append, Line.text, Param.linePhrase,
      String.append_assoc, String.append_assoc, String.append_assoc]
  rw [hline, hline, hphrase, hmuted, List.append_nil]

theorem adds_paramLines (ps : List Param) :
    Adds (code style (paramLines level ps)) (code style (paramLines level (ps.map Param.muted)))
      (ps.flatMap Param.spills) := by
  induction ps with
  | nil => exact .refl []
  | cons p ps ih =>
      rw [List.map_cons, paramLines, paramLines, List.isEmpty_map, code, code, List.flatMap_cons,
        List.flatMap_cons, codeOf_linePhrase, List.flatMap_cons]
      exact (Adds.tail _ _).append ih

theorem adds_methodLines (m : Method) : Adds (code style (methodLines level grouped m))
    (code style (methodLines level grouped { m with params := m.params.map Param.muted }))
    (m.params.flatMap Param.spills) := by
  simp only [methodLines, List.isEmpty_map, List.all_map, Function.comp_def,
    Param.isEmpty_comments_muted, List.map_map, code_append]
  refine Adds.before _ ?_
  split
  · next hempty =>
      rw [List.isEmpty_iff.mp hempty]
      exact .refl _
  · split
    · next hempty =>
        have hspills : m.params.flatMap Param.spills = [] := by
          refine List.flatMap_eq_nil_iff.mpr fun p hp => ?_
          rw [Param.spills, List.isEmpty_iff.mp (List.all_eq_true.mp hempty p hp), List.flatMap_nil]
        rw [hspills]
        exact .refl _
    · rw [List.cons_append, List.cons_append, code_cons, code_cons, code_append, code_append]
      exact ((adds_paramLines m.params).after _).before _

theorem adds_leafLines (l : Leaf) :
    Adds (code style (leafLines level grouped l)) (code style (leafLines level grouped l.muted))
      l.spills := by
  cases l with
  | method m => exact adds_methodLines m
  | _ => exact .refl _

theorem isOneLine_muted (o : Outline) : isOneLine o.muted = isOneLine o := by
  cases o with
  | node h c n cs =>
      cases c with
      | leaf l =>
          rw [Outline.muted_node, Content.muted, isOneLine, isOneLine, Notes.muted, List.isEmpty_map]
          cases l with
          | method m =>
              simp only [Leaf.muted, isOneLineLeaf, List.all_map, Function.comp_def,
                Param.isEmpty_comments_muted]
          | _ => rfl
      | _ => simp only [Outline.muted_node, Content.muted, isOneLine, Notes.muted, List.isEmpty_map]
  | conflict => rfl

theorem separator_muted (o : Outline) (os : List Outline) :
    separator o.muted (os.map Outline.muted) = separator o os := by
  cases os with
  | nil => rfl
  | cons next os => simp only [List.map_cons, separator, isOneLine_muted]

theorem sideHeader_muted (closed : Bool) (o : Outline) :
    sideHeader closed o.muted = sideHeader closed o := by
  cases o with
  | node h c n cs => cases c <;> rfl
  | conflict => rfl

theorem adds_body {ls ls' : List Line} {extra : List (List Char)} {closed : Bool} (last : Line)
    (h : Adds (code style ls) (code style ls') extra) (hclosed : closed = true → extra = []) :
    Adds (code style (if closed then [] else ls ++ [last]))
      (code style (if closed then [] else ls' ++ [last])) extra := by
  split
  · next hc =>
      rw [hclosed hc]
      exact .refl _
  · rw [code_append, code_append]
    exact h.after _

theorem adds_siblingLines {os : List Outline}
    (h : ∀ o ∈ os, ∀ level grouped, Adds (code style (lines style level grouped o))
      (code style (lines style level grouped o.muted)) o.spills) (level : Nat) (grouped : Bool) :
    Adds (code style (siblingLines style level grouped os))
      (code style (siblingLines style level grouped (os.map Outline.muted)))
      (Outline.spillsAll os) := by
  induction os with
  | nil => exact .refl []
  | cons o os ih =>
      rw [List.map_cons, siblingLines, siblingLines, separator_muted, code_append, code_append,
        code_append, code_append]
      exact ((h o (by simp) level grouped).after _).append (ih fun x hx => h x (by simp [hx]))

/-- The layout of an outline adds to the code of the muted one what its comments spill. -/
theorem adds_lines (o : Outline) (level : Nat) (grouped : Bool) :
    Adds (code style (lines style level grouped o)) (code style (lines style level grouped o.muted))
        o.spills ∧
      Adds (code style (bodyLines style level grouped o))
        (code style (bodyLines style level grouped o.muted)) o.spillsBelow := by
  induction o generalizing level grouped with
  | node h c n cs ih =>
      have hcs := @adds_siblingLines style cs fun x hx level grouped => (ih x hx level grouped).1
      rw [Outline.muted_node]
      refine ⟨?_, hcs level grouped⟩
      cases c with
      | tree | group =>
          simp only [lines, Content.muted, code_append, ← code_noteLines]
          exact (hcs level grouped).before _
      | visibilityGroup v =>
          simp only [lines, Content.muted, code_append, ← code_noteLines, List.isEmpty_map]
          exact ((hcs level true).before _).before _
      | scope s =>
          simp only [Content.muted, lines_scope, code_append, ← code_noteLines, List.isEmpty_map]
          exact (adds_body _ (hcs (level + 1) false) Outline.spillsAll_of_isEmpty).before _
      | leaf l =>
          simp only [lines, Content.muted, code_append, ← code_noteLines]
          exact (adds_leafLines l).before _
  | conflict h form labels n l r ihl ihr =>
      refine ⟨?_, .refl []⟩
      cases form with
      | declarations =>
          simp only [Outline.muted_conflict, lines, List.cons_append, code_cons, code_append]
          exact (((ihl level grouped).2.append ((ihr level grouped).2.before _)).after _).before _
      | headers =>
          -- No body is laid out but the one on the left, and the headers have no parameters.
          simp only [Outline.muted_conflict, lines_headers, code_cons, code_append, sideHeader_muted,
            Outline.isEmpty_children_muted, Outline.notes_muted, ← code_noteLines]
          exact (adds_body _ (ihl (level + 1) false).2 l.spillsBelow_of_isEmpty).before _

theorem adds_treeLines (o : Outline) :
    Adds (code style (treeLines style o)) (code style (treeLines style o.muted)) o.spills := by
  have hsigil : sigilLines style o.muted = sigilLines style o := by
    rw [sigilLines, sigilLines, Outline.isEmpty_children_muted]
  rw [treeLines_eq, treeLines_eq, hsigil, code_append, code_append]
  exact (adds_lines o 0 false).1.before _

/-- Two trees that differ in the texts of comments only have the same code, up to the lines that the
comments of parameters spill. If those of one tree spill nothing, the code is the same exactly if those
of the other tree spill nothing either. -/
theorem code_of_alike {f f' : Forest} (hf : f.WellFormed) (hf' : f'.WellFormed) :
    ∃ o o', f.outline Forest.root = .ok o ∧ f'.outline Forest.root = .ok o' ∧
      (o.Alike o' → ∀ style, ∃ t t', f.render style = .ok t ∧ f'.render style = .ok t' ∧
        (∃ base, Adds (codeOf (textLines t)) base o.spills ∧
          Adds (codeOf (textLines t')) base o'.spills) ∧
        (o'.spills = [] → (codeOf (textLines t) = codeOf (textLines t') ↔ o.spills = []))) := by
  obtain ⟨o, ho⟩ := hf.exists_shows
  obtain ⟨o', ho'⟩ := hf'.exists_shows
  refine ⟨o, o', ho.outline, ho'.outline, fun ha style => ?_⟩
  have hmuted : treeLines style o.muted = treeLines style o'.muted := by
    rw [← treeLines_rename (fun _ => 0) o.muted, ← treeLines_rename (fun _ => 0) o'.muted]
    exact congrArg (treeLines style) ha
  have h := @adds_treeLines style o
  have h' := @adds_treeLines style o'
  rw [hmuted] at h
  refine ⟨_, _, by rw [Forest.render, ho.outline]; rfl, by rw [Forest.render, ho'.outline]; rfl, ?_⟩
  rw [codeOf_text, codeOf_text]
  refine ⟨⟨_, h, h'⟩, fun hnone => ?_⟩
  rw [h'.eq_iff.mpr hnone]
  exact h.eq_iff

def commentedMethod (above behind : List String) : Forest :=
  ⟨#[{ kind := .plain .tree, children := [1] },
    { kind := .plain (.leaf (.method {
        name := "m", params := [{ kind := .required, name := "a", comments := behind }] })),
      notes := { comments := above }, parent := some Forest.root }]⟩

theorem code_of_alike_method :
    let f := commentedMethod ["one\n\ntwo"] ["x\n # y"]
    let f' := commentedMethod [""] ["z"]
    f.WellFormed ∧ f'.WellFormed ∧ ∃ o o' t t', f.outline Forest.root = .ok o ∧
      f'.outline Forest.root = .ok o' ∧ o.Alike o' ∧ f.render {} = .ok t ∧ f'.render {} = .ok t' ∧
      codeOf (textLines t) = codeOf (textLines t') := by
  intro f f'
  have hf : f.WellFormed := by decide
  have hf' : f'.WellFormed := by decide
  obtain ⟨o, o', ho, ho', h⟩ := code_of_alike hf hf'
  cases ho
  cases ho'
  obtain ⟨t, t', ht, ht', -, hcode⟩ := h rfl {}
  exact ⟨hf, hf', _, _, t, t', rfl, rfl, rfl, ht, ht', (hcode (by decide)).mpr (by decide)⟩

/-- The second line of a comment becomes code. -/
theorem comments_can_become_code :
    let f := commentedMethod [] ["x"]
    let f' := commentedMethod [] ["x\ny"]
    f.WellFormed ∧ f'.WellFormed ∧ ∃ o o' t t', f.outline Forest.root = .ok o ∧
      f'.outline Forest.root = .ok o' ∧ o.Alike o' ∧
      (∀ s ∈ o.muted.texts, '#' ∉ s.toList ∧ '\n' ∉ s.toList) ∧
      f.render {} = .ok t ∧ f'.render {} = .ok t' ∧ t' = "def m(\n  a # x\ny\n); end\n" ∧
      codeOf (textLines t) ≠ codeOf (textLines t') := by
  exact ⟨by decide, by decide, _, _, _, _, rfl, rfl, rfl, by decide, rfl, rfl, by decide, by decide⟩

end Layout

end Reconcile
