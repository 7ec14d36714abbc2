import Reconcile.Proofs.Layout.Resolving

namespace Reconcile

theorem Scope.header_ne_empty (s : Scope) : s.header ≠ "" := by
  cases s with
  | classNamed name superclass => cases superclass <;> simp [header]
  | _ => simp [header]

namespace Layout

variable {style : Style} {level k : Nat} {grouped : Bool} {o : Outline}

def Line.deeper (k : Nat) : Line → Line
  | .code level text => .code (level + k) text
  | .marker text => .marker text
  | .blank => .blank

theorem noteLines_deeper (n : Notes) :
    noteLines style (level + k) n = (noteLines style level n).map (Line.deeper k) := by
  rw [noteLines_eq, noteLines_eq, List.map_map]
  rfl

theorem paramLines_deeper (ps : List Param) :
    paramLines (level + k) ps = (paramLines level ps).map (Line.deeper k) := by
  induction ps with
  | nil => rfl
  | cons p ps ih => rw [paramLines, paramLines, ih, List.map_cons, Line.deeper]

theorem leafLines_deeper (l : Leaf) :
    leafLines (level + k) grouped l = (leafLines level grouped l).map (Line.deeper k) := by
  cases l with
  | method m =>
      simp only [leafLines, methodLines, Nat.add_right_comm level k 1, paramLines_deeper]
      split
      · simp [Line.deeper]
      · split <;> simp [Line.deeper]
  | «attribute» a => simp [leafLines, attributeLines, Line.deeper]
  | enumeration names =>
      simp only [leafLines, enumerationLines, Nat.add_right_comm level k 1]
      split <;> simp [Line.deeper]
  | _ => rfl

theorem separator_deeper (o : Outline) (os : List Outline) :
    (separator o os).map (Line.deeper k) = separator o os :=
  (List.map_congr_left fun _ hl => eq_blank_of_mem_separator hl ▸ rfl).trans (List.map_id _)

theorem siblingLines_deeper {os : List Outline}
    (h : ∀ o ∈ os, ∀ level grouped, lines style (level + k) grouped o =
      (lines style level grouped o).map (Line.deeper k)) (level : Nat) (grouped : Bool) :
    siblingLines style (level + k) grouped os =
      (siblingLines style level grouped os).map (Line.deeper k) := by
  induction os with
  | nil => rfl
  | cons o os ih =>
      rw [siblingLines, siblingLines, h o (by simp), ih fun x hx => h x (by simp [hx]),
        List.map_append, List.map_append, separator_deeper]

theorem lines_deeper (o : Outline) (level : Nat) (grouped : Bool) :
    lines style (level + k) grouped o = (lines style level grouped o).map (Line.deeper k) ∧
      bodyLines style (level + k) grouped o =
        (bodyLines style level grouped o).map (Line.deeper k) := by
  induction o generalizing level grouped with
  | node h c n cs ih =>
      have hcs := siblingLines_deeper fun x hx level grouped => (ih x hx level grouped).1
      refine ⟨?_, hcs level grouped⟩
      cases c with
      | tree | group => simp only [lines, List.map_append, noteLines_deeper, hcs]
      | visibilityGroup v =>
          simp only [lines, List.map_append, noteLines_deeper, hcs]
          cases v <;> cases cs <;> simp [Line.deeper]
      | scope s =>
          simp only [lines, List.map_append, noteLines_deeper, Nat.add_right_comm level k 1, hcs]
          split <;> simp [Line.deeper]
      | leaf l => simp only [lines, List.map_append, noteLines_deeper, leafLines_deeper]
  | conflict h form labels n l r ihl ihr =>
      refine ⟨?_, rfl⟩
      cases form with
      | declarations => simp [lines, Line.deeper, (ihl level grouped).2, (ihr level grouped).2]
      | headers =>
          simp only [lines_headers, List.map_append, List.map_cons, noteLines_deeper,
            Nat.add_right_comm level k 1, (ihl (level + 1) false).2]
          split <;> simp [Line.deeper]

/-- No line of code is empty, unless it stands below some level. -/
def Line.Filled (level : Nat) : Line → Prop
  | .code l text => text ≠ "" ∨ level < l
  | _ => True

theorem filled_code {text : String} (h : text ≠ "") : (Line.code level text).Filled level := Or.inl h

theorem filled_noteLines (n : Notes) : ∀ l ∈ noteLines style level n, l.Filled level := by
  intro l hl
  obtain ⟨text, rfl, hhash⟩ := exists_note hl
  apply filled_code
  rintro rfl
  exact List.not_mem_nil hhash

theorem filled_paramLines (ps : List Param) : ∀ l ∈ paramLines (level + 1) ps, l.Filled level := by
  intro l hl
  obtain ⟨p, -, last, rfl⟩ := exists_param hl
  exact Or.inr (Nat.lt_succ_self level)

theorem filled_signatures (ss : List Signature) :
    ∀ l ∈ ss.map (fun s => Line.code level s.phrase), l.Filled level := by
  intro l hl
  obtain ⟨s, -, rfl⟩ := List.mem_map.mp hl
  exact filled_code (by simp [Signature.phrase])

theorem filled_leafLines (l : Leaf) : ∀ line ∈ leafLines level grouped l, line.Filled level := by
  cases l with
  | method m =>
      rw [leafLines, methodLines, List.forall_mem_append]
      refine ⟨filled_signatures m.signatures, ?_⟩
      split
      · simp [Line.Filled]
      · split
        · simp [Line.Filled]
        · rw [List.cons_append, List.forall_mem_cons, List.forall_mem_append]
          exact ⟨filled_code (by simp), filled_paramLines m.params, by simp [Line.Filled]⟩
  | «attribute» a =>
      rw [leafLines, attributeLines, List.forall_mem_append]
      exact ⟨filled_signatures a.signatures, by simp [Line.Filled, Attribute.phrase]⟩
  | enumeration names =>
      rw [leafLines, enumerationLines]
      split
      · simp [Line.Filled]
      · rw [List.cons_append, List.forall_mem_cons, List.forall_mem_append, List.forall_mem_map]
        exact ⟨filled_code (by simp), fun _ _ => Or.inr (Nat.lt_succ_self level),
          by simp [Line.Filled]⟩
  | marker v => cases v <;> simp [leafLines, Line.Filled, Visibility.keyword]
  | mixin m => simp [leafLines, Line.Filled, Mixin.phrase]
  | field f => simp [leafLines, Line.Filled, Field.phrase]
  | _ => simp [leafLines, Line.Filled]

theorem Line.Filled.mono {l : Line} (h : l.Filled (level + 1)) : l.Filled level := by
  cases l with
  | code m text => exact h.imp_right Nat.lt_of_succ_lt
  | _ => trivial

theorem sideHeader_ne_empty (hs : ConflictForm.headers.suits o = true) (closed : Bool) :
    sideHeader closed o ≠ "" := by
  obtain ⟨h, s, n, cs, rfl⟩ := ConflictForm.exists_scope hs
  cases closed <;> simp [sideHeader, Scope.header_ne_empty]

theorem filled_lines (hs : o.sound = true) (level : Nat) (grouped : Bool) :
    (∀ l ∈ lines style level grouped o, l.Filled level) ∧
      ∀ l ∈ bodyLines style level grouped o, l.Filled level := by
  induction o generalizing level grouped with
  | node h c n cs ih =>
      rw [Outline.sound_node] at hs
      have hcs (level : Nat) (grouped : Bool) :
          ∀ l ∈ siblingLines style level grouped cs, l.Filled level :=
        forall_mem_siblingLines trivial fun x hx => (ih x hx (hs.2 x hx) level grouped).1
      refine ⟨?_, hcs level grouped⟩
      have hnotes := @filled_noteLines style level n
      cases c with
      | tree | group =>
          simp only [lines, List.forall_mem_append]
          exact ⟨hnotes, hcs level grouped⟩
      | visibilityGroup v =>
          simp only [lines, List.forall_mem_append]
          refine ⟨hnotes, ?_, hcs level true⟩
          cases v <;> cases cs <;> simp [Line.Filled, Visibility.keyword]
      | scope s =>
          simp only [lines, List.forall_mem_append]
          refine ⟨hnotes, ?_⟩
          split
          · simp [Line.Filled]
          · rw [List.cons_append, List.forall_mem_cons, List.forall_mem_append]
            exact ⟨filled_code s.header_ne_empty, fun l hl => (hcs (level + 1) false l hl).mono,
              by simp [Line.Filled]⟩
      | leaf l =>
          simp only [lines, List.forall_mem_append]
          exact ⟨hnotes, filled_leafLines l⟩
  | conflict h form labels n l r ihl ihr =>
      rw [Outline.sound_conflict] at hs
      refine ⟨?_, by simp [bodyLines]⟩
      cases form with
      | declarations =>
          simp only [lines, List.cons_append, List.forall_mem_cons, List.forall_mem_append]
          exact ⟨trivial, ⟨(ihl hs.2.1 level grouped).2, trivial, (ihr hs.2.2 level grouped).2⟩, trivial,
            by simp⟩
      | headers =>
          simp only [lines, List.cons_append, List.forall_mem_cons, List.forall_mem_append]
          refine ⟨trivial, ⟨filled_noteLines l.notes, filled_code (sideHeader_ne_empty hs.1.1 _), trivial,
            filled_noteLines r.notes⟩, filled_code (sideHeader_ne_empty hs.1.2 _), trivial, ?_⟩
          split
          · simp
          · rw [List.forall_mem_append]
            exact ⟨fun x hx => ((ihl hs.2.1 (level + 1) false).2 x hx).mono, by simp [Line.Filled]⟩

/-- A printed line behind the spaces of a level, unless it is blank or a marker. -/
def indented (style : Style) (level : Nat) (l : Line) : List Char :=
  if l.isMarker || l.text style = "" then (l.text style).toList
  else List.replicate (level * style.indentWidth.toNat) ' ' ++ (l.text style).toList

theorem toList_code (level : Nat) (text : String) : ((Line.code level text).text style).toList =
    List.replicate (level * style.indentWidth.toNat) ' ' ++ text.toList := by
  simp [Line.text, toList_pushn]

theorem toList_deeper {l : Line} (h : l.Filled 0) (k : Nat) :
    ((l.deeper k).text style).toList = indented style k l := by
  cases l with
  | code level text =>
      have hempty : (Line.code level text).text style = "" ↔
          level * style.indentWidth.toNat = 0 ∧ text = "" := by
        rw [← String.toList_eq_nil_iff, toList_code]
        simp
      rw [indented, Line.deeper, toList_code]
      split
      · next he =>
          obtain ⟨hlevel, rfl⟩ := hempty.mp (by simpa [Line.isMarker] using he)
          have hpos : 0 < level := h.resolve_left (· rfl)
          have hwidth := (Nat.mul_eq_zero.mp hlevel).resolve_left (Nat.ne_of_gt hpos)
          simp [toList_code, hwidth]
      · rw [toList_code, ← List.append_assoc, List.replicate_append_replicate, ← Nat.add_mul,
          Nat.add_comm]
  | marker text => rfl
  | blank => rfl

/-- What is printed of a node at a level is what is printed of it at the left edge, indented. -/
theorem printed_lines (hs : o.sound = true) (level : Nat) (grouped : Bool) :
    printed style (lines style level grouped o) =
      (lines style 0 grouped o).map (indented style level) := by
  have h := (@lines_deeper style level o 0 grouped).1
  rw [Nat.zero_add] at h
  rw [h, printed, List.map_map]
  refine List.map_congr_left fun l hl => ?_
  exact toList_deeper ((filled_lines hs 0 grouped).1 l hl) level

end Layout

end Reconcile
