import Reconcile.Proofs.Forest.Choosing
import Reconcile.Proofs.Forest.WellFormed
import Reconcile.Proofs.Layout.Piece
import Reconcile.Proofs.Layout.Unbroken
import Reconcile.Proofs.Normal.Rework

namespace Reconcile.Layout

def isOpening (line : List Char) : Bool := "<<<<<<< ".toList.isPrefixOf line

def isDivider (line : List Char) : Bool := line = "=======".toList

def isClosing (line : List Char) : Bool := ">>>>>>> ".toList.isPrefixOf line

def isPlain (line : List Char) : Bool := !isOpening line && !isDivider line && !isClosing line

/-- The lines that are not on the other side of some conflict. The stack lists the sides on which the
reader is of the regions that are open, the innermost first. -/
def chosen (side : Side) : List Side → List (List Char) → List (List Char)
  | _, [] => []
  | stack, line :: rest =>
      if isOpening line then chosen side (.left :: stack) rest
      else if isClosing line then chosen side stack.tail rest
      else if isDivider line && !stack.isEmpty then chosen side (.right :: stack.tail) rest
      else if stack.all (· = side) then line :: chosen side stack rest
      else chosen side stack rest

def textLines (text : String) : List (List Char) := text.toList.splitOn '\n'

section TakenFor

variable {isBlank : List Char → Bool} {side : Side} {xs xs' ys ys' : List (List Char)}
  {line : List Char}

/-- The reader takes `xs` for `ys`, up to blank lines, wherever it is on the chosen sides alone, and
skips `xs` anywhere else. -/
def TakenFor (isBlank : List Char → Bool) (side : Side) (xs ys : List (List Char)) : Prop :=
  ∀ stack rest, (chosen side stack (xs ++ rest)).filter (!isBlank ·) =
    (if stack.all (· = side) then ys.filter (!isBlank ·) else []) ++
      (chosen side stack rest).filter (!isBlank ·)

namespace TakenFor

theorem nil : TakenFor isBlank side [] [] := by
  intro stack rest
  simp

theorem append (h : TakenFor isBlank side xs ys) (h' : TakenFor isBlank side xs' ys') :
    TakenFor isBlank side (xs ++ xs') (ys ++ ys') := by
  intro stack rest
  rw [List.append_assoc, h, h']
  split <;> simp

theorem congr (h : TakenFor isBlank side xs ys)
    (he : ys.filter (!isBlank ·) = ys'.filter (!isBlank ·)) : TakenFor isBlank side xs ys' := by
  intro stack rest
  rw [h, he]

theorem chosen_plain (hl : isPlain line = true) (stack : List Side) (rest : List (List Char)) :
    chosen side stack (line :: rest) =
      if stack.all (· = side) then line :: chosen side stack rest else chosen side stack rest := by
  simp only [isPlain, Bool.and_eq_true, Bool.not_eq_true'] at hl
  simp [chosen, hl]

theorem plain (h : ∀ line ∈ xs, isPlain line = true) : TakenFor isBlank side xs xs := by
  induction xs with
  | nil => exact nil
  | cons line xs ih =>
      have hline : TakenFor isBlank side [line] [line] := by
        intro stack rest
        rw [List.singleton_append, chosen_plain (h line (by simp))]
        split
        · rw [← List.singleton_append, List.filter_append]
        · rw [List.nil_append]
      exact hline.append (ih fun l hl => h l (by simp [hl]))

/-- A region between markers counts for what is on the chosen side of it. -/
theorem region {opening closing : List Char} (ho : isOpening opening = true)
    (hc : isClosing closing = true) (h : TakenFor isBlank side xs ys) (h' : TakenFor isBlank side xs' ys') :
    TakenFor isBlank side (opening :: (xs ++ "=======".toList :: (xs' ++ [closing])))
      (side.pick ys ys') := by
  intro stack rest
  have hnot : isOpening closing = false := by
    obtain ⟨label, rfl⟩ := List.isPrefixOf_iff_prefix.mp hc
    rfl
  have hopening : chosen side stack (opening :: (xs ++ "=======".toList :: (xs' ++ closing :: rest))) =
      chosen side (.left :: stack) (xs ++ "=======".toList :: (xs' ++ closing :: rest)) := by
    simp [chosen, ho]
  have hdivider : chosen side (.left :: stack) ("=======".toList :: (xs' ++ closing :: rest)) =
      chosen side (.right :: stack) (xs' ++ closing :: rest) := by
    rw [chosen]
    rfl
  have hclosing : chosen side (.right :: stack) (closing :: rest) = chosen side stack rest := by
    simp [chosen, hnot, hc]
  simp only [List.cons_append, List.append_assoc, List.nil_append]
  rw [hopening, h, hdivider, h', hclosing]
  cases side <;> simp [Side.pick]

end TakenFor

end TakenFor

variable {style : Style} {isBlank : List Char → Bool} {side : Side} {level : Nat} {grouped : Bool}
  {o : Outline} {ls ls' : List Line}

def printed (style : Style) (ls : List Line) : List (List Char) := ls.map fun l => (l.text style).toList

def Line.isMarker : Line → Bool
  | .marker _ => true
  | _ => false

/-- No other line can be taken for a marker. -/
def Legible (style : Style) (ls : List Line) : Prop :=
  ∀ l ∈ ls, l.isMarker = false → isPlain (l.text style).toList = true

instance : Decidable (Legible style ls) :=
  inferInstanceAs (Decidable (∀ l ∈ ls, l.isMarker = false → isPlain (l.text style).toList = true))

theorem Legible.mono (h : Legible style ls) (hs : ls' ⊆ ls) : Legible style ls' :=
  fun l hl => h l (hs hl)

theorem legible_append : Legible style (ls ++ ls') ↔ Legible style ls ∧ Legible style ls' :=
  List.forall_mem_append

/-- What is printed without blank lines. -/
def dense (style : Style) (isBlank : List Char → Bool) (ls : List Line) : List (List Char) :=
  (printed style ls).filter (!isBlank ·)

theorem dense_append : dense style isBlank (ls ++ ls') =
    dense style isBlank ls ++ dense style isBlank ls' := by
  simp [dense, printed]

theorem dense_cons (l : Line) (ls : List Line) : dense style isBlank (l :: ls) =
    dense style isBlank [l] ++ dense style isBlank ls := by
  rw [← dense_append, List.singleton_append]

theorem dense_blank (hb : isBlank [] = true) (skip : Bool) :
    dense style isBlank (if skip then [] else [.blank]) = [] := by
  cases skip <;> simp [dense, printed, Line.text, hb]

theorem dense_separator (hb : isBlank [] = true) (o : Outline) (os : List Outline) :
    dense style isBlank (separator o os) = [] := by
  cases os with
  | nil => rfl
  | cons next os =>
      rw [separator]
      exact dense_blank hb _

theorem dense_siblingLines_append (hb : isBlank [] = true) (os os' : List Outline) :
    dense style isBlank (siblingLines style level grouped (os ++ os')) =
      dense style isBlank (siblingLines style level grouped os) ++
        dense style isBlank (siblingLines style level grouped os') := by
  induction os with
  | nil => rfl
  | cons o os ih =>
      simp only [List.cons_append, siblingLines, dense_append, dense_separator hb, ih, List.append_assoc]

theorem siblingLines_singleton (o : Outline) :
    siblingLines style level grouped [o] = lines style level grouped o := by
  simp [siblingLines, separator]

/-- The reader takes a layout for another one. -/
def LooksLike (style : Style) (isBlank : List Char → Bool) (side : Side) (ls ls' : List Line) : Prop :=
  TakenFor isBlank side (printed style ls) (printed style ls')

namespace LooksLike

variable {ms ms' : List Line}

theorem append (h : LooksLike style isBlank side ls ls') (h' : LooksLike style isBlank side ms ms') :
    LooksLike style isBlank side (ls ++ ms) (ls' ++ ms') := by
  unfold LooksLike printed
  rw [List.map_append, List.map_append]
  exact TakenFor.append h h'

theorem congr (h : LooksLike style isBlank side ls ls')
    (he : dense style isBlank ls' = dense style isBlank ms) : LooksLike style isBlank side ls ms :=
  TakenFor.congr h he

theorem refl (hl : Legible style ls) (hm : ∀ l ∈ ls, l.isMarker = false) :
    LooksLike style isBlank side ls ls := by
  apply TakenFor.plain
  intro line hline
  obtain ⟨l, hmem, rfl⟩ := List.mem_map.mp hline
  exact hl l hmem (hm l hmem)

theorem region (labels : Labels) (h : LooksLike style isBlank side ls ls')
    (h' : LooksLike style isBlank side ms ms') :
    LooksLike style isBlank side
      (.marker ("<<<<<<< " ++ labels.left) :: (ls ++ .marker "=======" ::
        (ms ++ [.marker (">>>>>>> " ++ labels.right)]))) (side.pick ls' ms') := by
  have ho : isOpening ("<<<<<<< " ++ labels.left).toList = true := by
    rw [String.toList_append]
    exact List.isPrefixOf_iff_prefix.mpr (List.prefix_append _ _)
  have hc : isClosing (">>>>>>> " ++ labels.right).toList = true := by
    rw [String.toList_append]
    exact List.isPrefixOf_iff_prefix.mpr (List.prefix_append _ _)
  have hregion := TakenFor.region ho hc h h'
  cases side <;> simpa [LooksLike, printed, Line.text, Side.pick] using hregion

end LooksLike

theorem isMarker_noteLines (n : Notes) : ∀ l ∈ noteLines style level n, l.isMarker = false := by
  intro l hl
  obtain ⟨text, rfl, -⟩ := exists_note hl
  rfl

theorem isMarker_paramLines (level : Nat) (ps : List Param) : ∀ l ∈ paramLines level ps, l.isMarker = false := by
  intro l hl
  obtain ⟨p, -, last, rfl⟩ := exists_param hl
  rfl

theorem isMarker_leafLines (l : Leaf) : ∀ line ∈ leafLines level grouped l, line.isMarker = false := by
  cases l with
  | method m =>
      have hparams := isMarker_paramLines (level + 1) m.params
      simp only [leafLines, methodLines, List.forall_mem_append]
      refine ⟨by simp [Line.isMarker], ?_⟩
      split
      · simp [Line.isMarker]
      · split
        · simp [Line.isMarker]
        · rw [List.cons_append, List.forall_mem_cons, List.forall_mem_append]
          exact ⟨rfl, hparams, by simp [Line.isMarker]⟩
  | «attribute» a => simp [leafLines, attributeLines, Line.isMarker, or_imp, forall_and]
  | enumeration names =>
      rw [leafLines, enumerationLines]
      split
      · simp [Line.isMarker]
      · rw [List.cons_append, List.forall_mem_cons, List.forall_mem_append, List.forall_mem_map]
        exact ⟨rfl, fun _ _ => rfl, by simp [Line.isMarker]⟩
  | _ => simp [leafLines, Line.isMarker]

theorem looksLike_siblingLines (hb : isBlank [] = true) {os : List Outline}
    (h : ∀ o ∈ os, ∀ level grouped, Legible style (lines style level grouped o) →
      LooksLike style isBlank side (lines style level grouped o)
        (siblingLines style level grouped (o.resolvedTo side))) (level : Nat) (grouped : Bool)
    (hl : Legible style (siblingLines style level grouped os)) :
    LooksLike style isBlank side (siblingLines style level grouped os)
      (siblingLines style level grouped (os.flatMap (Outline.resolvedTo side))) := by
  induction os with
  | nil => exact TakenFor.nil
  | cons o os ih =>
      rw [siblingLines, legible_append, legible_append] at hl
      have hfirst := h o (by simp) level grouped hl.1.1
      have hsep : LooksLike style isBlank side (separator o os) (separator o os) :=
        .refl hl.1.2 fun _ hl => eq_blank_of_mem_separator hl ▸ rfl
      have hrest := ih (fun x hx => h x (by simp [hx])) hl.2
      apply ((hfirst.append hsep).append hrest).congr
      rw [List.flatMap_cons, dense_siblingLines_append hb, dense_append, dense_append,
        dense_separator hb, List.append_nil]

theorem lines_headers (h : Handle) (labels : Labels) (n : Notes) (l r : Outline) :
    lines style level grouped (.conflict h .headers labels n l r) =
      .marker ("<<<<<<< " ++ labels.left) ::
        ((noteLines style level l.notes ++ [.code level (sideHeader l.children.isEmpty l)]) ++
          .marker "=======" ::
            ((noteLines style level r.notes ++ [.code level (sideHeader l.children.isEmpty r)]) ++
              [.marker (">>>>>>> " ++ labels.right)])) ++
        if l.children.isEmpty then [] else bodyLines style (level + 1) false l ++ [.code level "end"] := by
  simp [lines]

theorem lines_scope (h : Handle) (s : Scope) (n : Notes) (cs : List Outline) :
    lines style level grouped (.node h (.scope s) n cs) =
      (noteLines style level n ++
        [.code level (sideHeader cs.isEmpty (.node h (.scope s) n cs))]) ++
        if cs.isEmpty then [] else siblingLines style (level + 1) false cs ++ [.code level "end"] := by
  cases cs <;> simp [lines, sideHeader]

theorem looksLike_code {text : String} (hl : Legible style [.code level text]) :
    LooksLike style isBlank side [.code level text] [.code level text] :=
  .refl hl (by simp [Line.isMarker])

theorem looksLike_noteLines {n : Notes} (hl : Legible style (noteLines style level n)) :
    LooksLike style isBlank side (noteLines style level n) (noteLines style level n) :=
  .refl hl (isMarker_noteLines n)

theorem looksLike_scopeBody {cs cs' : List Outline} (hempty : cs'.isEmpty = cs.isEmpty)
    (hl : Legible style (if cs.isEmpty then [] else
      siblingLines style (level + 1) false cs ++ [.code level "end"]))
    (h : Legible style (siblingLines style (level + 1) false cs) → LooksLike style isBlank side
      (siblingLines style (level + 1) false cs) (siblingLines style (level + 1) false cs')) :
    LooksLike style isBlank side
      (if cs.isEmpty then [] else siblingLines style (level + 1) false cs ++ [.code level "end"])
      (if cs'.isEmpty then [] else siblingLines style (level + 1) false cs' ++ [.code level "end"]) := by
  rw [hempty]
  split
  · exact TakenFor.nil
  · next hne =>
      rw [if_neg hne, legible_append] at hl
      exact (h hl.1).append (looksLike_code hl.2)

theorem looksLike_groupHead (hb : isBlank [] = true) (v : Visibility) (empty empty' : Bool)
    (hl : Legible style (if v = .pub then [] else
      .code level v.keyword :: if empty then [] else [.blank])) :
    LooksLike style isBlank side
      (if v = .pub then [] else .code level v.keyword :: if empty then [] else [.blank])
      (if v = .pub then [] else .code level v.keyword :: if empty' then [] else [.blank]) := by
  split
  · exact TakenFor.nil
  · next hv =>
      rw [if_neg hv, ← List.singleton_append, legible_append] at hl
      have hblank : LooksLike style isBlank side (if empty then [] else [.blank])
          (if empty' then [] else [.blank]) := by
        apply (LooksLike.refl hl.2 (by cases empty <;> simp [Line.isMarker])).congr
        rw [dense_blank hb, dense_blank hb]
      exact (looksLike_code hl.1).append hblank

theorem isEmpty_flatMap_resolvedTo (side : Side) (hs : o.sound = true) (hf : o.filledSides = true) :
    (o.children.flatMap (Outline.resolvedTo side)).isEmpty = o.children.isEmpty := by
  have hne := (Outline.resolvedTo_ne_nil side hs hf).2
  cases hc : o.children with
  | nil => rfl
  | cons x xs =>
      rw [hc] at hne
      simpa using hne (by simp)

theorem looksLike_headers {h : Handle} {labels : Labels} {n : Notes} {l r : Outline}
    (hsl : ConflictForm.headers.suits l = true) (hsr : ConflictForm.headers.suits r = true)
    (hempty : (l.children.flatMap (Outline.resolvedTo side)).isEmpty = l.children.isEmpty)
    (hbody : Legible style (bodyLines style (level + 1) false l) → LooksLike style isBlank side
      (bodyLines style (level + 1) false l)
      (siblingLines style (level + 1) false (l.children.flatMap (Outline.resolvedTo side))))
    (hl : Legible style (lines style level grouped (.conflict h .headers labels n l r))) :
    LooksLike style isBlank side (lines style level grouped (.conflict h .headers labels n l r))
      (siblingLines style level grouped
        ((Outline.conflict h .headers labels n l r).resolvedTo side)) := by
  obtain ⟨k, s, m, cs, rfl⟩ := ConflictForm.exists_scope hsl
  obtain ⟨k', s', m', cs', rfl⟩ := ConflictForm.exists_scope hsr
  rw [lines_headers] at hl ⊢
  have hside (x : Outline) (hx : Legible style (noteLines style level x.notes ++
      [.code level (sideHeader cs.isEmpty x)])) : LooksLike style isBlank side
        (noteLines style level x.notes ++ [.code level (sideHeader cs.isEmpty x)])
        (noteLines style level x.notes ++ [.code level (sideHeader cs.isEmpty x)]) := by
    rw [legible_append] at hx
    exact (looksLike_noteLines hx.1).append (looksLike_code hx.2)
  rw [legible_append] at hl
  have hleft := hside _ (hl.1.mono fun x hx => by
    exact List.mem_cons_of_mem _ (List.mem_append_left _ hx))
  have hright := hside _ (hl.1.mono fun x hx => by
    exact List.mem_cons_of_mem _ (List.mem_append_right _
      (List.mem_cons_of_mem _ (List.mem_append_left _ hx))))
  have hshared := looksLike_scopeBody hempty hl.2 hbody
  have hchosen (x : Handle) (t : Scope) (q : Notes) (ds : List Outline) :
      lines style level grouped (.node x (.scope t) q (cs.flatMap (Outline.resolvedTo side))) =
        (noteLines style level q ++ [.code level (sideHeader cs.isEmpty (.node x (.scope t) q ds))]) ++
          if (cs.flatMap (Outline.resolvedTo side)).isEmpty then [] else
            siblingLines style (level + 1) false (cs.flatMap (Outline.resolvedTo side)) ++
              [.code level "end"] := by
    rw [lines_scope, show (cs.flatMap (Outline.resolvedTo side)).isEmpty = cs.isEmpty from hempty]
    rfl
  have hall := (hleft.region labels hright).append hshared
  cases side with
  | left =>
      simp only [Outline.resolvedTo, Side.pick, Outline.withBody, siblingLines_singleton,
        Outline.resolvedToAll_eq, List.flatMap_cons, Outline.children, List.flatMap_nil, List.append_nil]
      rw [hchosen k s m cs]
      exact hall
  | right =>
      simp only [Outline.resolvedTo, Side.pick, Outline.withBody, siblingLines_singleton,
        Outline.resolvedToAll_eq, List.flatMap_cons, Outline.children, List.flatMap_nil, List.append_nil]
      rw [hchosen k' s' m' cs']
      exact hall

theorem looksLike_lines (side : Side) (hb : isBlank [] = true) (hs : o.sound = true) (hf : o.filledSides = true)
    (level : Nat) (grouped : Bool) :
    (Legible style (lines style level grouped o) → LooksLike style isBlank side
      (lines style level grouped o) (siblingLines style level grouped (o.resolvedTo side))) ∧
    (Legible style (bodyLines style level grouped o) → LooksLike style isBlank side
      (bodyLines style level grouped o)
      (siblingLines style level grouped (o.children.flatMap (Outline.resolvedTo side)))) := by
  induction o generalizing level grouped with
  | node h c n cs ih =>
      have hempty := isEmpty_flatMap_resolvedTo side hs hf
      rw [Outline.sound_node] at hs
      rw [Outline.filledSides_node] at hf
      have hbody := looksLike_siblingLines hb fun o ho level grouped =>
        (ih o ho (hs.2 o ho) (hf o ho) level grouped).1
      refine ⟨?_, hbody level grouped⟩
      intro hl
      rw [Outline.resolvedTo_node, siblingLines_singleton]
      cases c with
      | tree | group =>
          simp only [lines, legible_append] at hl ⊢
          exact (looksLike_noteLines hl.1).append (hbody level grouped hl.2)
      | visibilityGroup v =>
          simp only [lines, legible_append] at hl ⊢
          exact (looksLike_noteLines hl.1).append
            ((looksLike_groupHead hb v _ _ hl.2.1).append (hbody level true hl.2.2))
      | scope s =>
          rw [lines_scope, legible_append, legible_append] at hl
          rw [lines_scope, lines_scope]
          have hheader : sideHeader (cs.flatMap (Outline.resolvedTo side)).isEmpty
              (.node h (.scope s) n (cs.flatMap (Outline.resolvedTo side))) =
                sideHeader cs.isEmpty (.node h (.scope s) n cs) := by
            rw [show (cs.flatMap (Outline.resolvedTo side)).isEmpty = cs.isEmpty from hempty]
            rfl
          rw [hheader]
          exact ((looksLike_noteLines hl.1.1).append (looksLike_code hl.1.2)).append
            (looksLike_scopeBody hempty hl.2 (hbody (level + 1) false))
      | leaf l =>
          simp only [lines, legible_append] at hl ⊢
          exact (looksLike_noteLines hl.1).append (.refl hl.2 (isMarker_leafLines l))
  | conflict h form labels n l r ihl ihr =>
      rw [Outline.sound_conflict] at hs
      rw [Outline.filledSides_conflict] at hf
      constructor
      · intro hl
        cases form with
        | declarations =>
            have hbodies : LooksLike style isBlank side
                (lines style level grouped (.conflict h .declarations labels n l r))
                (side.pick
                  (siblingLines style level grouped (l.children.flatMap (Outline.resolvedTo side)))
                  (siblingLines style level grouped
                    (r.children.flatMap (Outline.resolvedTo side)))) := by
              simp only [lines, List.cons_append, List.append_assoc] at hl ⊢
              have hleft := (ihl hs.2.1 hf.2.1 level grouped).2 (hl.mono fun x hx => by simp [hx])
              have hright := (ihr hs.2.2 hf.2.2 level grouped).2 (hl.mono fun x hx => by simp [hx])
              exact hleft.region labels hright
            obtain ⟨hl', m, cs, rfl⟩ := ConflictForm.exists_tree hs.1.1
            obtain ⟨hr', m', ds, rfl⟩ := ConflictForm.exists_tree hs.1.2
            cases side <;> simpa [Outline.resolvedTo, Side.pick, Outline.children] using hbodies
        | headers =>
            exact looksLike_headers hs.1.1 hs.1.2 (isEmpty_flatMap_resolvedTo side hs.2.1 hf.2.1)
              (ihl hs.2.1 hf.2.1 (level + 1) false).2 hl
      · exact fun _ => TakenFor.nil

theorem toList_text_cons (l : Line) (ls : List Line) : (text style (l :: ls)).toList =
    (l.text style).toList ++ '\n' :: (text style ls).toList := by
  simp [text]

theorem textLines_text {ls : List Line} (h : ∀ l ∈ ls, l.Unbroken) :
    textLines (text style ls) = printed style ls ++ [[]] := by
  induction ls with
  | nil => rfl
  | cons l ls ih =>
      have hl : '\n' ∉ (l.text style).toList := (h l (by simp)).text style
      have hrest := ih fun x hx => h x (by simp [hx])
      rw [textLines] at hrest ⊢
      rw [toList_text_cons, List.splitOn_append_cons_self_of_not_mem hl, hrest]
      rfl

theorem texts_resolvedTo {x : Outline} (hx : x ∈ o.resolvedTo side) : x.texts ⊆ o.texts := by
  have hchild {x y : Outline} (hx : x ∈ y.children) : x.texts ⊆ y.texts := by
    cases y with
    | node h c n cs =>
        rw [texts_node]
        exact fun t ht => List.mem_append_right _ (List.mem_flatMap.mpr ⟨x, hx, ht⟩)
    | conflict => cases hx
  induction o generalizing x with
  | node h c n cs ih =>
      rw [Outline.resolvedTo_node, List.mem_singleton] at hx
      subst hx
      rw [texts_node, texts_node]
      apply List.append_subset.mpr
      constructor
      · exact List.subset_append_left _ _
      · intro t ht
        obtain ⟨y, hy, ht⟩ := List.mem_flatMap.mp ht
        obtain ⟨z, hz, hy⟩ := List.mem_flatMap.mp hy
        exact List.mem_append_right _ (List.mem_flatMap.mpr ⟨z, hz, ih z hz hy ht⟩)
  | conflict h form labels n l r ihl ihr =>
      rw [texts_conflict]
      have hleft : l.texts ⊆ [labels.left, labels.right] ++ n.texts ++ (l.texts ++ r.texts) :=
        fun t ht => List.mem_append_right _ (List.mem_append_left _ ht)
      have hright : r.texts ⊆ [labels.left, labels.right] ++ n.texts ++ (l.texts ++ r.texts) :=
        fun t ht => List.mem_append_right _ (List.mem_append_right _ ht)
      cases form with
      | declarations =>
          obtain ⟨y, hy, hxy⟩ := List.mem_flatMap.mp hx
          cases side with
          | left => exact fun t ht => hleft (ihl hy (hchild hxy ht))
          | right => exact fun t ht => hright (ihr hy (hchild hxy ht))
      | headers =>
          have hbody : ∀ y ∈ (l.resolvedTo side).flatMap Outline.children, y.texts ⊆ l.texts := by
            intro y hy t ht
            obtain ⟨z, hz, hy⟩ := List.mem_flatMap.mp hy
            exact ihl hz (hchild hy ht)
          have hwith (y : Outline) : ∀ t ∈
              (y.withBody ((l.resolvedTo side).flatMap Outline.children)).texts,
              t ∈ y.texts ∨ t ∈ l.texts := by
            intro t ht
            cases y with
            | node k c m cs =>
                rw [Outline.withBody, texts_node, List.mem_append, List.mem_flatMap] at ht
                rcases ht with ht | ⟨z, hz, ht⟩
                · rw [texts_node]
                  exact Or.inl (List.mem_append_left _ ht)
                · exact Or.inr (hbody z hz ht)
            | conflict => exact Or.inl ht
          rw [Outline.resolvedTo, List.mem_singleton] at hx
          subst hx
          intro t ht
          cases side with
          | left => exact (hwith l t ht).elim (fun h => hleft h) fun h => hleft h
          | right => exact (hwith r t ht).elim (fun h => hright h) fun h => hleft h

theorem treeLines_eq (o : Outline) : treeLines style o = sigilLines style o ++ lines style 0 false o :=
  rfl

theorem looksLike_treeLines (hb : isBlank [] = true) (hs : o.sound = true) (hf : o.filledSides = true)
    {r : Outline} (hr : o.resolvedTo side = [r]) (hl : Legible style (treeLines style o)) :
    LooksLike style isBlank side (treeLines style o) (treeLines style r) := by
  rw [treeLines_eq, legible_append] at hl
  rw [treeLines_eq, treeLines_eq]
  have hlines := (looksLike_lines side hb hs hf 0 false).1 hl.2
  rw [hr, siblingLines_singleton] at hlines
  refine LooksLike.append ?_ hlines
  have hmarker : ∀ l ∈ sigilLines style o, l.isMarker = false := by
    unfold sigilLines
    split
    · split <;> simp [Line.isMarker]
    · simp
  apply (LooksLike.refl hl.1 hmarker).congr
  unfold sigilLines
  cases style.sigil with
  | none => rfl
  | some sigil =>
      dsimp only
      rw [dense_cons, dense_blank hb, dense_cons _ (if r.children.isEmpty then [] else [.blank]),
        dense_blank hb]

theorem exists_resolvedTo (htree : o.content? = some .tree) (side : Side) :
    ∃ r, o.resolvedTo side = [r] := by
  cases o with
  | node h c n cs => exact ⟨_, Outline.resolvedTo_node h c n cs⟩
  | conflict => cases htree

theorem treeLines_rename (φ : Handle → Handle) (o : Outline) :
    treeLines style (o.rename φ) = treeLines style o := by
  rw [← flatMap_lines_treePieces, treePieces_rename, flatMap_lines_treePieces]

/-- Resolving the printed tree on one side gives the lines of the printed tree that is resolved to
that side, whatever else than empty lines counts as blank. -/
theorem printed_resolution {f : Forest} {o : Outline} (hf : f.WellFormed)
    (ho : f.outline Forest.root = .ok o) (hsides : o.filledSides = true)
    (htexts : ∀ t ∈ o.texts, Unbroken t) (hsigil : ∀ s ∈ style.sigil, Unbroken s)
    (hl : Legible style (treeLines style o)) (hb : isBlank [] = true) (side : Side) :
    ∃ t r t', f.render style = .ok t ∧ o.resolvedTo side = [r] ∧ t' = text style (treeLines style r) ∧
      (∀ (g : Forest) (p : Outline), g.outline Forest.root = .ok p → p.forget = r.forget →
        g.render style = .ok t') ∧
      (chosen side [] (textLines t)).filter (!isBlank ·) = (textLines t').filter (!isBlank ·) := by
  obtain ⟨o', hshows⟩ := hf.exists_shows
  cases hshows.outline.symm.trans ho
  obtain ⟨r, hr⟩ := exists_resolvedTo hshows.tree side
  have hlines := unbroken_treeLines htexts hsigil
  have hmem : r ∈ o.resolvedTo side := by
    rw [hr]
    exact List.mem_singleton_self r
  have hlines' : ∀ l ∈ treeLines style r, l.Unbroken :=
    unbroken_treeLines (fun t ht => htexts t (texts_resolvedTo hmem ht)) hsigil
  have hreads := looksLike_treeLines hb hshows.sound hsides hr hl [] [[]]
  refine ⟨text style (treeLines style o), r, _, ?_, hr, rfl, ?_, ?_⟩
  · simp [Forest.render, ho]
  · intro g p hp hforget
    have hsame : treeLines style p = treeLines style r := by
      rw [← treeLines_rename (fun _ => 0) p, ← treeLines_rename (fun _ => 0) r]
      exact congrArg (treeLines style) hforget
    simp [Forest.render, hp, hsame]
  · rw [textLines_text hlines, textLines_text hlines', hreads, List.filter_append]
    simp [chosen, isOpening, isClosing, isDivider, hb]

def contested : Forest :=
  ⟨#[{ kind := .plain .tree, children := [1] },
    { kind := .conflict .headers ⟨"ours", "theirs"⟩ 2 3, parent := some 0 },
    { kind := .plain (.scope (.classNamed "A" (some "B"))), parent := some 1, children := [4] },
    { kind := .plain (.scope (.classNamed "A" (some "C"))), notes := ⟨["two\nlines"], none⟩,
      parent := some 1 },
    { kind := .conflict .declarations ⟨"ours", "theirs"⟩ 5 6, parent := some 2 },
    { kind := .plain .tree, parent := some 4, children := [7] },
    { kind := .plain .tree, parent := some 4, children := [8] },
    { kind := .plain (.leaf (.constant "X" "1")), parent := some 5 },
    { kind := .plain (.leaf (.constant "X" "2")), parent := some 6 }]⟩

def settled : Forest :=
  ⟨#[{ kind := .plain .tree, children := [1] },
    { kind := .plain (.scope (.classNamed "A" (some "C"))), notes := ⟨["two\nlines"], none⟩,
      parent := some 0, children := [2] },
    { kind := .plain (.leaf (.constant "X" "2")), parent := some 1 }]⟩

theorem printed_resolution_contested : contested.WellFormed ∧
    ∃ t t', contested.render {} = .ok t ∧ settled.render {} = .ok t' ∧
      (chosen .right [] (textLines t)).filter (!List.isEmpty ·) =
        (textLines t').filter (!List.isEmpty ·) := by
  have hf : contested.WellFormed := by decide
  obtain ⟨t, r, t', ht, hr, -, hg, he⟩ := @printed_resolution {} List.isEmpty contested _ hf rfl
    (by decide) (by decide) (by decide) (by decide) rfl .right
  cases hr
  exact ⟨hf, t, t', ht, hg settled _ rfl rfl, he⟩

end Reconcile.Layout
