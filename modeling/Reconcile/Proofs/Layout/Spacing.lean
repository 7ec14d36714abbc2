import Mathlib.Data.List.Chain
import Reconcile.Proofs.Layout.Indentation

namespace Reconcile

namespace Layout

/-- What a line is there for. -/
inductive Role where
  | plain
  | opening
  | closing
  | regionStart
  | regionMiddle
  | regionEnd
  deriving DecidableEq

/-- Whether what follows belongs to the line. -/
def Role.leads : Role → Bool
  | opening | regionStart | regionMiddle => true
  | plain | closing | regionEnd => false

/-- Whether what stands before belongs to the line. -/
def Role.trails : Role → Bool
  | closing | regionMiddle | regionEnd => true
  | plain | opening | regionStart => false

structure Part where
  role : Role
  line : Line

def plainParts (ls : List Line) : List Part := ls.map (Part.mk .plain)

def closingPart (level : Nat) : Part := ⟨.closing, .code level "end"⟩

def enclosed (level : Nat) (header : String) (body : List Part) : List Part :=
  ⟨.opening, .code level header⟩ :: body ++ [closingPart level]

def region (labels : Labels) (left right : List Part) : List Part :=
  ⟨.regionStart, .marker ("<<<<<<< " ++ labels.left)⟩ :: left ++
    ⟨.regionMiddle, .marker "======="⟩ :: right ++
      [⟨.regionEnd, .marker (">>>>>>> " ++ labels.right)⟩]

def leafParts (level : Nat) (grouped : Bool) : Leaf → List Part
  | .enumeration names =>
      if names.isEmpty then plainParts [.code level "enums do end"]
      else
        enclosed level "enums do"
          (plainParts (names.map fun name => .code (level + 1) (name ++ " = new")))
  | l => plainParts (leafLines level grouped l)

def headerParts (style : Style) (level : Nat) (closed : Bool) (o : Outline) : List Part :=
  plainParts (noteLines style level o.notes) ++
    [⟨if closed then .plain else .opening, .code level (sideHeader closed o)⟩]

mutual

/-- The lines of a node with their roles. -/
def parts (style : Style) (level : Nat) (grouped : Bool) : Outline → List Part
  | .node _ content notes children =>
      plainParts (noteLines style level notes) ++
        match content with
        | .tree | .group _ => siblingParts style level grouped children
        | .visibilityGroup v =>
            plainParts (if v = .pub then []
              else .code level v.keyword :: if children.isEmpty then [] else [.blank]) ++
              siblingParts style level true children
        | .scope s =>
            if children.isEmpty then plainParts [.code level (s.header ++ "; end")]
            else enclosed level s.header (siblingParts style (level + 1) false children)
        | .leaf l => leafParts level grouped l
  | .conflict _ .declarations labels _ left right =>
      region labels (bodyParts style level grouped left) (bodyParts style level grouped right)
  | .conflict _ .headers labels _ left right =>
      let closed := left.children.isEmpty
      region labels (headerParts style level closed left) (headerParts style level closed right) ++
        if closed then [] else bodyParts style (level + 1) false left ++ [closingPart level]

def bodyParts (style : Style) (level : Nat) (grouped : Bool) : Outline → List Part
  | .node _ _ _ children => siblingParts style level grouped children
  | .conflict .. => []

def siblingParts (style : Style) (level : Nat) (grouped : Bool) : List Outline → List Part
  | [] => []
  | o :: os =>
      parts style level grouped o ++ plainParts (separator o os) ++ siblingParts style level grouped os

end

def treeParts (style : Style) (o : Outline) : List Part :=
  plainParts (sigilLines style o) ++ parts style 0 false o

variable {style : Style} {level : Nat} {grouped : Bool} {o : Outline} {ps qs : List Part}

theorem plainParts_append (ls ls' : List Line) :
    plainParts (ls ++ ls') = plainParts ls ++ plainParts ls' := List.map_append

@[simp] theorem map_line_plainParts (ls : List Line) : (plainParts ls).map Part.line = ls := by
  simp [plainParts, Function.comp_def]

theorem map_line_leafParts (l : Leaf) :
    (leafParts level grouped l).map Part.line = leafLines level grouped l := by
  cases l with
  | enumeration names =>
      simp only [leafParts, leafLines, enumerationLines]
      split <;> simp [enclosed, closingPart]
  | _ => exact map_line_plainParts _

theorem map_line_siblingParts {os : List Outline}
    (h : ∀ o ∈ os, ∀ level grouped, (parts style level grouped o).map Part.line =
      lines style level grouped o) (level : Nat) (grouped : Bool) :
    (siblingParts style level grouped os).map Part.line = siblingLines style level grouped os := by
  induction os with
  | nil => rfl
  | cons o os ih =>
      simp only [siblingParts, siblingLines, List.map_append, map_line_plainParts, h o List.mem_cons_self,
        ih fun x hx => h x (List.mem_cons_of_mem _ hx)]

theorem map_line_parts (o : Outline) (level : Nat) (grouped : Bool) :
    (parts style level grouped o).map Part.line = lines style level grouped o ∧
      (bodyParts style level grouped o).map Part.line = bodyLines style level grouped o := by
  induction o generalizing level grouped with
  | node h c n cs ih =>
      have hcs := map_line_siblingParts fun x hx level grouped => (ih x hx level grouped).1
      refine ⟨?_, hcs level grouped⟩
      simp only [parts, lines, List.map_append, map_line_plainParts]
      congr 1
      cases c with
      | tree | group => exact hcs level grouped
      | visibilityGroup v => simp only [List.map_append, map_line_plainParts, hcs]
      | scope s => cases cs <;> simp [enclosed, closingPart, hcs]
      | leaf l => exact map_line_leafParts l
  | conflict h form labels n l r ihl ihr =>
      refine ⟨?_, rfl⟩
      cases form with
      | declarations => simp [parts, lines, region, (ihl level grouped).2, (ihr level grouped).2]
      | headers =>
          simp only [parts, lines_headers]
          split <;> simp [region, headerParts, closingPart, (ihl (level + 1) false).2]

theorem map_line_treeParts (o : Outline) : (treeParts style o).map Part.line = treeLines style o := by
  rw [treeParts, List.map_append, map_line_plainParts, (map_line_parts o 0 false).1, treeLines_eq]

def isBlank (text : String) : Bool := text.toList.all Char.isWhitespace

theorem isBlank_of_mem {text : String} {c : Char} (hc : c ∈ text.toList) (hw : c.isWhitespace = false) :
    isBlank text = false := by
  rw [isBlank, List.all_eq_false]
  exact ⟨c, hc, by simp [hw]⟩

def Line.isBlank (style : Style) (l : Line) : Bool := Layout.isBlank (l.text style)

@[simp] theorem isBlank_code {text : String} (h : isBlank text = false) :
    (Line.code level text).isBlank style = false := by
  obtain ⟨c, hc, hw⟩ := List.all_eq_false.mp h
  exact isBlank_of_mem (c := c) (by simp [Line.text, hc]) (by simpa using hw)

theorem isBlank_noteLines (n : Notes) : ∀ l ∈ noteLines style level n, l.isBlank style = false := by
  intro l hl
  obtain ⟨text, rfl, hhash⟩ := exists_note hl
  exact isBlank_code (isBlank_of_mem hhash rfl)

theorem isBlank_header (s : Scope) (rest : String) : isBlank (s.header ++ rest) = false := by
  cases s with
  | moduleNamed => exact isBlank_of_mem (c := 'm') (by simp [Scope.header]) rfl
  | classNamed name superclass =>
      cases superclass <;> exact isBlank_of_mem (c := 'c') (by simp [Scope.header]) rfl
  | singleton => exact isBlank_of_mem (c := 'c') (by simp [Scope.header]) rfl

theorem isBlank_sideHeader (hs : ConflictForm.headers.suits o = true) (closed : Bool) :
    isBlank (sideHeader closed o) = false := by
  obtain ⟨h, s, n, cs, rfl⟩ := ConflictForm.exists_scope hs
  cases closed with
  | true => exact isBlank_header s "; end"
  | false => simpa [sideHeader] using isBlank_header s ""

theorem isBlank_keyword (v : Visibility) : isBlank v.keyword = false := by
  cases v <;> exact isBlank_of_mem (c := 'p') (by simp [Visibility.keyword]) rfl

theorem isBlank_signatures (ss : List Signature) :
    ∀ l ∈ ss.map (fun s => Line.code level s.phrase), l.isBlank style = false := by
  intro l hl
  obtain ⟨s, -, rfl⟩ := List.mem_map.mp hl
  exact isBlank_code (isBlank_of_mem (c := '\x7b') (by simp [Signature.phrase]) rfl)

theorem isBlank_linePhrase (p : Param) : isBlank (p.linePhrase false) = false :=
  isBlank_of_mem (c := ',') (by simp [Param.linePhrase]) rfl

/-- What the lines of two parts must be like if one stands right above the other. -/
structure Spaced (style : Style) (p q : Part) : Prop where
  single : p.line.isBlank style = false ∨ q.line.isBlank style = false
  below : p.role.leads = true → q.line.isBlank style = false
  above : q.role.trails = true → p.line.isBlank style = false

/-- Parts in which blank lines only separate. -/
structure WellSpaced (style : Style) (ps : List Part) : Prop where
  chain : ps.IsChain (Spaced style)
  first : ∀ p ∈ ps.head?, p.line.isBlank style = false
  last : ∀ p ∈ ps.getLast?, p.line.isBlank style = false

/-- Parts that can be set off by blank lines. -/
structure Block (style : Style) (ps : List Part) : Prop extends WellSpaced style ps where
  ne_nil : ps ≠ []
  opens : ∀ p ∈ ps.head?, p.role.trails = false
  closes : ∀ p ∈ ps.getLast?, p.role.leads = false

theorem spaced_of_filled {p q : Part} (hp : p.line.isBlank style = false)
    (hq : q.line.isBlank style = false) : Spaced style p q :=
  ⟨Or.inl hp, fun _ => hq, fun _ => hp⟩

theorem spaced_plain {l k : Line} (h : l.isBlank style = false ∨ k.isBlank style = false) :
    Spaced style ⟨.plain, l⟩ ⟨.plain, k⟩ :=
  ⟨h, fun hl => absurd hl Bool.false_ne_true, fun ht => absurd ht Bool.false_ne_true⟩

namespace WellSpaced

theorem append (h : WellSpaced style ps) (h' : WellSpaced style qs) : WellSpaced style (ps ++ qs) where
  chain := h.chain.append h'.chain fun p hp q hq => spaced_of_filled (h.last p hp) (h'.first q hq)
  first := by
    intro p hp
    cases ps with
    | nil => exact h'.first p hp
    | cons q ps => exact h.first p hp
  last := by
    intro p hp
    rw [List.getLast?_append, Option.mem_def, Option.or_eq_some_iff] at hp
    rcases hp with hp | ⟨-, hp⟩
    · exact h'.last p hp
    · exact h.last p hp

theorem of_filled (h : ∀ p ∈ ps, p.line.isBlank style = false) : WellSpaced style ps where
  chain := (List.pairwise_of_forall_mem_list fun p hp q hq =>
    spaced_of_filled (h p hp) (h q hq)).isChain
  first := fun p hp => h p (List.mem_of_mem_head? hp)
  last := fun p hp => h p (List.mem_of_getLast? hp)

theorem cons {p : Part} (hp : p.line.isBlank style = false) (h : WellSpaced style ps) :
    WellSpaced style (p :: ps) := by
  have hline : WellSpaced style [p] := of_filled (by simpa using hp)
  exact hline.append h

end WellSpaced

namespace Block

/-- What is between two blocks is not at the ends. -/
theorem join (h : Block style ps) (h' : Block style qs) (middle : List Part)
    (hc : (ps ++ (middle ++ qs)).IsChain (Spaced style)) : Block style (ps ++ (middle ++ qs)) := by
  have hhead : (ps ++ (middle ++ qs)).head? = ps.head? := List.head?_append_of_ne_nil _ h.ne_nil
  have hlast : (ps ++ (middle ++ qs)).getLast? = qs.getLast? := by
    rw [← List.append_assoc, List.getLast?_append_of_ne_nil _ h'.ne_nil]
  exact ⟨⟨hc, hhead ▸ h.first, hlast ▸ h'.last⟩, by simp [h.ne_nil], hhead ▸ h.opens, hlast ▸ h'.closes⟩

theorem append (h : Block style ps) (h' : Block style qs) : Block style (ps ++ qs) :=
  h.join h' [] (h.toWellSpaced.append h'.toWellSpaced).chain

theorem append_blank (h : Block style ps) (h' : Block style qs) :
    Block style (ps ++ ⟨.plain, .blank⟩ :: qs) := by
  refine h.join h' [⟨.plain, .blank⟩] (h.chain.append (List.isChain_cons.mpr ⟨?_, h'.chain⟩) ?_)
  · intro q hq
    refine ⟨Or.inr (h'.first q hq), nofun, fun ht => ?_⟩
    rw [h'.opens q hq] at ht
    cases ht
  · intro p hp q hq
    cases hq
    refine ⟨Or.inl (h.last p hp), fun hl => ?_, nofun⟩
    rw [h.closes p hp] at hl
    cases hl

theorem between {p q : Part} (hp : p.line.isBlank style = false) (hq : q.line.isBlank style = false)
    (ht : p.role.trails = false) (hl : q.role.leads = false) (h : WellSpaced style ps) :
    Block style (p :: ps ++ [q]) := by
  refine ⟨(WellSpaced.cons hp h).append (.of_filled (by simpa using hq)), by simp, ?_, ?_⟩
  · intro r hr
    cases hr
    exact ht
  · intro r hr
    rw [List.getLast?_append_of_ne_nil _ (List.cons_ne_nil q [])] at hr
    cases hr
    exact hl

theorem plain {ls : List Line} (hls : ∀ l ∈ ls, l.isBlank style = false) (hne : ls ≠ []) :
    Block style (plainParts ls) := by
  have hrole : ∀ p ∈ plainParts ls, p.role = .plain := by simp [plainParts]
  refine ⟨.of_filled (by simpa [plainParts] using hls), by simpa [plainParts] using hne, ?_, ?_⟩
  · intro p hp
    rw [hrole p (List.mem_of_mem_head? hp)]
    rfl
  · intro p hp
    rw [hrole p (List.mem_of_getLast? hp)]
    rfl

theorem code {text : String} (h : isBlank text = false) : Block style (plainParts [.code level text]) :=
  .plain (by simpa using isBlank_code h) (List.cons_ne_nil _ _)

theorem plain_append {ls : List Line} (hls : ∀ l ∈ ls, l.isBlank style = false) (h : Block style ps) :
    Block style (plainParts ls ++ ps) := by
  cases ls with
  | nil => exact h
  | cons l ls => exact (plain hls (List.cons_ne_nil l ls)).append h

theorem enclosed {header : String} (hh : isBlank header = false) (h : WellSpaced style ps) :
    Block style (enclosed level header ps) :=
  between (isBlank_code hh) (isBlank_code (by decide)) rfl rfl h

theorem region {labels : Labels} (h : WellSpaced style ps) (h' : WellSpaced style qs) :
    Block style (region labels ps qs) := by
  have hmiddle : isBlank "=======" = false := by decide
  have hinner := h.append (h'.cons (p := ⟨.regionMiddle, .marker "======="⟩) hmiddle)
  have hopen : isBlank ("<<<<<<< " ++ labels.left) = false := isBlank_of_mem (c := '<') (by simp) rfl
  have hclose : isBlank (">>>>>>> " ++ labels.right) = false := isBlank_of_mem (c := '>') (by simp) rfl
  have hblock := between (p := ⟨.regionStart, .marker ("<<<<<<< " ++ labels.left)⟩)
    (q := ⟨.regionEnd, .marker (">>>>>>> " ++ labels.right)⟩) hopen hclose rfl rfl hinner
  simpa [Layout.region] using hblock

theorem append_body (h : Block style ps) (h' : WellSpaced style qs) :
    Block style (ps ++ (qs ++ [closingPart level])) := by
  have hclose : (closingPart level).line.isBlank style = false := isBlank_code (by decide)
  refine ⟨h.toWellSpaced.append (h'.append (.of_filled (by simpa using hclose))), by simp, ?_, ?_⟩
  · rw [List.head?_append_of_ne_nil _ h.ne_nil]
    exact h.opens
  · intro p hp
    rw [← List.append_assoc, List.getLast?_append_of_ne_nil _ (List.cons_ne_nil _ [])] at hp
    cases hp
    rfl

theorem params {l : Line} (hl : l.isBlank style = false) (inner outer : Nat) (qs : List Param) :
    Block style (plainParts (l :: paramLines inner qs ++ [.code outer "); end"])) := by
  have hend : (Line.code outer "); end").isBlank style = false := isBlank_code (by decide)
  induction qs generalizing l with
  | nil => exact plain (by simp [paramLines, hl, hend]) (by simp)
  | cons q qs ih =>
      cases qs with
      | nil =>
          have hchain : (plainParts (l :: paramLines inner [q] ++ [.code outer "); end"])).IsChain
              (Spaced style) :=
            .cons_cons (spaced_plain (Or.inl hl)) (.cons_cons (spaced_plain (Or.inr hend)) (.singleton _))
          refine ⟨⟨hchain, ?_, ?_⟩, ?_, ?_, ?_⟩ <;>
            simp [plainParts, paramLines, hl, hend, Role.trails, Role.leads]
      | cons r rs =>
          have hq : (Line.code inner (q.linePhrase false)).isBlank style = false :=
            isBlank_code (isBlank_linePhrase q)
          have hline : Block style (plainParts [l]) := plain (by simpa using hl) (by simp)
          exact hline.append (ih hq)

end Block

theorem block_methodLines (m : Method) : Block style (plainParts (methodLines level grouped m)) := by
  rw [methodLines, plainParts_append]
  refine .plain_append (isBlank_signatures m.signatures) ?_
  split
  · exact .code (isBlank_of_mem (c := 'd') (by simp) rfl)
  · split
    · exact .code (isBlank_of_mem (c := 'd') (by simp) rfl)
    · exact .params (isBlank_code (isBlank_of_mem (c := 'd') (by simp) rfl)) _ _ _

theorem block_leafParts (l : Leaf) : Block style (leafParts level grouped l) := by
  cases l with
  | constant | typeMember => exact .code (isBlank_of_mem (c := '=') (by simp) rfl)
  | helper => exact .code (isBlank_of_mem (c := '!') (by simp) rfl)
  | marker v => cases v <;> exact .code (isBlank_of_mem (c := 'p') (by simp [Visibility.keyword]) rfl)
  | mixin m =>
      refine .code (isBlank_of_mem (c := 'e') ?_ rfl)
      cases hm : m.kind <;> simp [Mixin.phrase, MixinKind.keyword, hm]
  | field f => exact .code (isBlank_of_mem (c := ':') (by simp [Field.phrase]) rfl)
  | enumeration names =>
      rw [leafParts]
      split
      · exact .code (isBlank_of_mem (c := 'e') (by simp) rfl)
      · refine .enclosed (by decide) (.of_filled fun p hp => ?_)
        simp only [plainParts, List.map_map, List.mem_map] at hp
        obtain ⟨name, -, rfl⟩ := hp
        exact isBlank_code (isBlank_of_mem (c := '=') (by simp) rfl)
  | method m => exact block_methodLines m
  | «attribute» a =>
      have hparts : leafParts level grouped (.attribute a) = plainParts (attributeLines level grouped a) := rfl
      rw [hparts, attributeLines, plainParts_append]
      refine .plain_append (isBlank_signatures a.signatures) (.code (isBlank_of_mem (c := 'a') ?_ rfl))
      cases hk : a.kind <;> simp [Attribute.phrase, AttributeKind.keyword, hk]

end Layout

/-- A tree or a group that has nothing in it. -/
def Outline.isHollow : Outline → Bool
  | .node _ .tree _ children | .node _ (.group _) _ children | .node _ (.visibilityGroup _) _ children =>
      children.isEmpty
  | _ => false

namespace Layout

theorem block_siblingParts {os : List Outline} (hne : os ≠ [])
    (h : ∀ o ∈ os, ∀ level grouped, Block style (parts style level grouped o)) (level : Nat)
    (grouped : Bool) : Block style (siblingParts style level grouped os) := by
  induction os with
  | nil => exact absurd rfl hne
  | cons o os ih =>
      rw [List.forall_mem_cons] at h
      cases os with
      | nil => simpa [siblingParts, separator, plainParts] using h.1 level grouped
      | cons next os =>
          have hrest := ih (List.cons_ne_nil next os) h.2
          rw [siblingParts, separator]
          split
          · simpa [plainParts] using (h.1 level grouped).append hrest
          · simpa [plainParts] using (h.1 level grouped).append_blank hrest

theorem wellSpaced_headerParts (hs : ConflictForm.headers.suits o = true) (closed : Bool) :
    WellSpaced style (headerParts style level closed o) := by
  refine .append (.of_filled ?_) (.of_filled ?_)
  · simpa [plainParts] using isBlank_noteLines o.notes
  · simpa using isBlank_code (isBlank_sideHeader hs closed)

theorem wellSpaced_bodyParts (h : o.children ≠ [] → Block style (bodyParts style level grouped o)) :
    WellSpaced style (bodyParts style level grouped o) := by
  cases o with
  | conflict => exact .of_filled nofun
  | node k c n cs =>
      cases cs with
      | nil => exact .of_filled nofun
      | cons x cs => exact (h (List.cons_ne_nil x cs)).toWellSpaced

/-- Every node is laid out as a block, and so is every body. -/
theorem block_parts (hs : o.sound = true)
    (hfull : ∀ x ∈ o.subtrees, ∀ c ∈ x.children, c.isHollow = false) (level : Nat) (grouped : Bool) :
    (o.isHollow = false → Block style (parts style level grouped o)) ∧
      (o.children ≠ [] → Block style (bodyParts style level grouped o)) := by
  induction o generalizing level grouped with
  | node h c n cs ih =>
      rw [Outline.sound_node] at hs
      rw [Outline.subtrees_node, List.forall_mem_cons] at hfull
      have hcs (hne : cs ≠ []) : ∀ level grouped, Block style (siblingParts style level grouped cs) := by
        refine block_siblingParts hne fun x hx level grouped => ?_
        have hbelow : ∀ y ∈ x.subtrees, ∀ c ∈ y.children, c.isHollow = false := fun y hy =>
          hfull.2 y (List.mem_flatMap.mpr ⟨x, hx, hy⟩)
        exact (ih x hx (hs.2 x hx) hbelow level grouped).1 (hfull.1 x hx)
      refine ⟨fun hhollow => .plain_append (isBlank_noteLines n) ?_, fun hne => hcs hne level grouped⟩
      cases c with
      | tree | group => exact hcs (List.isEmpty_eq_false_iff.mp hhollow) level grouped
      | visibilityGroup v =>
          have hkeyword : Block style (plainParts [.code level v.keyword]) := .code (isBlank_keyword v)
          have hsiblings := hcs (List.isEmpty_eq_false_iff.mp hhollow) level true
          cases cs with
          | nil => cases hhollow
          | cons x cs =>
              cases v with
              | pub => exact hsiblings
              | prot | priv => exact hkeyword.append_blank hsiblings
      | scope s =>
          cases cs with
          | nil => exact .code (isBlank_header s "; end")
          | cons x cs =>
              have hheader : isBlank s.header = false := by simpa using isBlank_header s ""
              exact .enclosed hheader (hcs (List.cons_ne_nil x cs) (level + 1) false).toWellSpaced
      | leaf l => exact block_leafParts l
  | conflict h form labels n l r ihl ihr =>
      rw [Outline.sound_conflict] at hs
      rw [Outline.subtrees_conflict, List.forall_mem_cons, List.forall_mem_append] at hfull
      refine ⟨fun _ => ?_, fun hne => absurd rfl hne⟩
      cases form with
      | declarations =>
          exact .region (wellSpaced_bodyParts (ihl hs.2.1 hfull.2.1 level grouped).2)
            (wellSpaced_bodyParts (ihr hs.2.2 hfull.2.2 level grouped).2)
      | headers =>
          have hregion : Block style (region labels (headerParts style level l.children.isEmpty l)
              (headerParts style level l.children.isEmpty r)) :=
            .region (wellSpaced_headerParts hs.1.1 _) (wellSpaced_headerParts hs.1.2 _)
          rw [parts]
          split
          · simpa using hregion
          · exact hregion.append_body (wellSpaced_bodyParts (ihl hs.2.1 hfull.2.1 (level + 1) false).2)

theorem wellSpaced_treeParts (hs : o.sound = true) (htree : o.content? = some .tree)
    (hfull : ∀ x ∈ o.subtrees, ∀ c ∈ x.children, c.isHollow = false) :
    WellSpaced style (treeParts style o) := by
  have hsigil (sigil : String) : Block style (plainParts [.code 0 ("# typed: " ++ sigil)]) :=
    .code (isBlank_of_mem (c := '#') (by simp) rfl)
  cases o with
  | conflict => cases htree
  | node h c n cs =>
      cases htree
      rw [treeParts, sigilLines]
      cases cs with
      | nil =>
          have hnotes : WellSpaced style (plainParts (noteLines style 0 n)) :=
            .of_filled (by simpa [plainParts] using isBlank_noteLines n)
          cases style.sigil with
          | none => simpa [parts, siblingParts, plainParts] using hnotes
          | some sigil =>
              have hall := (hsigil sigil).toWellSpaced.append hnotes
              simpa [parts, siblingParts, plainParts, Outline.children] using hall
      | cons x cs =>
          have hblock : Block style (parts style 0 false (.node h .tree n (x :: cs))) :=
            (block_parts hs hfull 0 false).1 rfl
          cases style.sigil with
          | none => exact hblock.toWellSpaced
          | some sigil => exact ((hsigil sigil).append_blank hblock).toWellSpaced

variable {f : Forest}

/-- In the text of a tree, blank lines only separate: the text neither starts nor ends with one, and they
are never next to each other, right below a line that opens a body or starts a region or its second
half, or right above a line that closes a body or starts the second half of a region or ends it. -/
theorem blank_lines_separate (hf : f.WellFormed) (ho : f.outline Forest.root = .ok o)
    (hfull : ∀ x ∈ o.subtrees, ∀ c ∈ x.children, c.isHollow = false)
    (htexts : ∀ t ∈ o.texts, Unbroken t) (hsigil : ∀ s ∈ style.sigil, Unbroken s) :
    ∃ t, f.render style = .ok t ∧
      textLines t = (treeParts style o).map (fun p => (p.line.text style).toList) ++ [[]] ∧
      WellSpaced style (treeParts style o) := by
  obtain ⟨o', hshows⟩ := hf.exists_shows
  cases hshows.outline.symm.trans ho
  refine ⟨text style (treeLines style o), by simp [Forest.render, ho], ?_,
    wellSpaced_treeParts hshows.sound hshows.tree hfull⟩
  rw [textLines_text (unbroken_treeLines htexts hsigil), ← map_line_treeParts, printed, List.map_map]
  rfl

def roomy : Forest :=
  ⟨#[{ kind := .plain .tree, children := [1] },
    { kind := .plain (.scope (.classNamed "A" none)), parent := some 0, children := [2, 3, 5] },
    { kind := .plain (.leaf (.enumeration ["Low", "High"])), parent := some 1 },
    { kind := .plain (.visibilityGroup .priv), parent := some 1, children := [4] },
    { kind := .plain (.leaf (.method { name := "m" })), notes := ⟨["two\nlines"], none⟩,
      parent := some 3 },
    { kind := .conflict .declarations ⟨"ours", "theirs"⟩ 6 7, parent := some 1 },
    { kind := .plain .tree, parent := some 5, children := [8] },
    { kind := .plain .tree, parent := some 5, children := [9] },
    { kind := .plain (.leaf (.constant "X" "1")), parent := some 6 },
    { kind := .plain (.leaf (.constant "X" "2")), parent := some 7 }]⟩

def typed : Style := { sigil := some "true" }

theorem blank_lines_separate_roomy : roomy.WellFormed ∧
    ∃ t ps, roomy.render typed = .ok t ∧ ps.length = 20 ∧
      textLines t = ps.map (fun p => (p.line.text typed).toList) ++ [[]] ∧ WellSpaced typed ps := by
  have hf : roomy.WellFormed := by decide
  have hsigil : ∀ s ∈ typed.sigil, Unbroken s := by decide
  obtain ⟨t, ht, hlines, hs⟩ := blank_lines_separate (f := roomy) hf rfl (by decide) (by decide) hsigil
  exact ⟨hf, t, _, ht, rfl, hlines, hs⟩

end Layout

end Reconcile
