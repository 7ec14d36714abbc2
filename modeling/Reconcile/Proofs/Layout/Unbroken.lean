import Reconcile.Layout.Output
import Reconcile.Proofs.Forest.Subtree
import Reconcile.Proofs.Texts

namespace Reconcile

def Location.texts (l : Location) : List String := l.file.toList

def Param.texts (p : Param) : List String := p.name :: p.fallback.toList ++ p.comments

def TypedName.texts (p : TypedName) : List String := [p.name, p.type]

def Signature.texts (s : Signature) : List String :=
  s.params.flatMap TypedName.texts ++ s.returns.toList ++ s.typeParams

def Scope.texts : Scope → List String
  | .moduleNamed name => [name]
  | .classNamed name superclass => name :: superclass.toList
  | .singleton => []

def Leaf.texts : Leaf → List String
  | .constant name value | .typeMember name value => [name, value]
  | .method m => m.name :: m.params.flatMap Param.texts ++ m.signatures.flatMap Signature.texts
  | .attribute a => a.names ++ a.signatures.flatMap Signature.texts
  | .mixin m => m.names
  | .marker _ => []
  | .field f => f.name :: f.type :: f.fallback.toList
  | .enumeration names => names
  | .helper name => [name]

def Content.texts : Content → List String
  | .scope s => s.texts
  | .leaf l => l.texts
  | _ => []

def Notes.texts (n : Notes) : List String := n.location.toList.flatMap Location.texts

/-- All texts of what can be reached, comments of nodes apart. -/
def Outline.texts (o : Outline) : List String :=
  o.subtrees.flatMap fun
    | .node _ c n _ => c.texts ++ n.texts
    | .conflict _ _ labels n _ _ => [labels.left, labels.right] ++ n.texts

def Unbroken (s : String) : Prop := '\n' ∉ s.toList

namespace Unbroken

variable {s t : String} {ss : List String}

@[simp] theorem append_iff : Unbroken (s ++ t) ↔ Unbroken s ∧ Unbroken t := by
  simp [Unbroken]

theorem intercalate (ht : Unbroken t) (hss : ∀ s ∈ ss, Unbroken s) : Unbroken (t.intercalate ss) := by
  induction ss with
  | nil => simp [Unbroken]
  | cons s ss ih =>
      have hrest := ih fun u hu => hss u (by simp [hu])
      cases ss with
      | nil => simpa using hss s (by simp)
      | cons u us =>
          rw [String.intercalate_cons_cons]
          simpa [hrest, ht] using hss s (by simp)

theorem join (hss : ∀ s ∈ ss, Unbroken s) : Unbroken (String.join ss) := by
  simpa [Unbroken] using hss

@[simp] theorem repr (n : Nat) : Unbroken n.repr := by
  rw [Unbroken, Nat.toList_repr]
  intro hmem
  cases Nat.isDigit_of_mem_toDigits (by decide) (by decide) hmem

theorem pushn (hs : Unbroken s) (n : Nat) : Unbroken (s.pushn ' ' n) := by
  rw [Unbroken, toList_pushn]
  simpa [Unbroken] using hs

end Unbroken

instance (s : String) : Decidable (Unbroken s) := inferInstanceAs (Decidable ('\n' ∉ s.toList))

theorem unbroken_commaSeparated {texts : List String} (h : ∀ s ∈ texts, Unbroken s) :
    Unbroken (commaSeparated texts) :=
  Unbroken.intercalate (by decide) h

theorem Location.unbroken_phrase {l : Location} (h : ∀ s ∈ l.texts, Unbroken s) :
    Unbroken l.phrase := by
  have hfile : Unbroken (l.file.getD "-") := by
    cases hl : l.file with
    | none => decide
    | some file => exact h file (by simp [texts, hl])
  have hcolon : Unbroken ":" := by decide
  have hdash : Unbroken "-" := by decide
  simp [phrase, hfile, hcolon, hdash]

theorem Param.unbroken_phrase {p : Param} (h : ∀ s ∈ p.texts, Unbroken s) : Unbroken p.phrase := by
  have hname : Unbroken p.name := h p.name (by simp [texts])
  have hfallback : Unbroken (p.fallback.getD "nil") := by
    cases hp : p.fallback with
    | none => decide
    | some value => exact h value (by simp [texts, hp])
  unfold phrase
  cases p.kind with
  | required => exact hname
  | _ => simpa [hname, hfallback] using (by decide)

theorem Param.unbroken_linePhrase {p : Param} (h : ∀ s ∈ p.texts, Unbroken s) (last : Bool) :
    Unbroken (p.linePhrase last) := by
  have hphrase := Param.unbroken_phrase h
  have hcomments : Unbroken (String.join (p.comments.map (" # " ++ ·))) := by
    apply Unbroken.join
    intro s hs
    obtain ⟨c, hc, rfl⟩ := List.mem_map.mp hs
    have hblank : Unbroken " # " := by decide
    simpa [hblank] using h c (by simp [texts, hc])
  have hcomma : Unbroken (if last then "" else ",") := by cases last <;> decide
  simp [linePhrase, hphrase, hcomma, hcomments]

theorem Signature.unbroken_phrase {s : Signature} (h : ∀ t ∈ s.texts, Unbroken t) :
    Unbroken s.phrase := by
  have hparams : ∀ t ∈ s.params.map (fun p => p.name ++ ": " ++ p.type), Unbroken t := by
    intro t ht
    obtain ⟨p, hp, rfl⟩ := List.mem_map.mp ht
    have hp' (u : String) (hu : u ∈ p.texts) : Unbroken u :=
      h u (by simp only [texts, List.mem_append, List.mem_flatMap]; exact Or.inl (Or.inl ⟨p, hp, hu⟩))
    have hcolon : Unbroken ": " := by decide
    simp [hp' p.name (by simp [TypedName.texts]), hp' p.type (by simp [TypedName.texts]), hcolon]
  have htypes : ∀ t ∈ s.typeParams.map (":" ++ ·), Unbroken t := by
    intro t ht
    obtain ⟨u, hu, rfl⟩ := List.mem_map.mp ht
    have hcolon : Unbroken ":" := by decide
    simpa [hcolon] using h u (by simp [texts, hu])
  have hword (b : Bool) (word c : String) (hword : Unbroken word) (hc : c ∈ if b then [word] else []) :
      Unbroken c := by
    cases b with
    | true => exact (List.mem_singleton.mp hc).symm ▸ hword
    | false => cases hc
  have hlist (name c : String) (ts : List String) (b : Bool) (hname : Unbroken name)
      (hts : ∀ t ∈ ts, Unbroken t)
      (hc : c ∈ if b then [] else [name ++ commaSeparated ts ++ ")"]) : Unbroken c := by
    cases b with
    | true => cases hc
    | false =>
        rw [List.mem_singleton.mp hc]
        simpa [hname, unbroken_commaSeparated hts] using (by decide)
  unfold phrase
  simp only [Unbroken.append_iff]
  refine ⟨⟨⟨by split <;> decide, by decide⟩, Unbroken.intercalate (by decide) ?_⟩, by decide⟩
  intro c hc
  simp only [List.mem_append, List.mem_singleton] at hc
  rcases hc with ((((hc | hc) | hc) | hc) | hc) | rfl
  · exact hword _ _ c (by decide) hc
  · exact hword _ _ c (by decide) hc
  · exact hword _ _ c (by decide) hc
  · exact hlist _ c _ _ (by decide) htypes hc
  · exact hlist _ c _ _ (by decide) hparams hc
  · cases hs : s.returns with
    | none => decide
    | some type =>
        have htype := h type (by simp [texts, hs])
        simpa [htype] using (by decide)

theorem Scope.unbroken_header {s : Scope} (h : ∀ t ∈ s.texts, Unbroken t) : Unbroken s.header := by
  cases s with
  | moduleNamed name => simpa [header, h name (by simp [texts])] using (by decide)
  | classNamed name superclass =>
      have hname := h name (by simp [texts])
      cases superclass with
      | none => simpa [header, hname] using (by decide)
      | some superclass =>
          simpa [header, hname, h superclass (by simp [texts])] using (by decide)
  | singleton => decide

namespace Layout

def Line.Unbroken : Line → Prop
  | .code _ text | .marker text => Reconcile.Unbroken text
  | .blank => True

@[simp] theorem Line.unbroken_code {level : Nat} {text : String} :
    (Line.code level text).Unbroken ↔ Reconcile.Unbroken text := Iff.rfl

theorem Line.Unbroken.text {line : Line} (h : line.Unbroken) (style : Style) :
    Reconcile.Unbroken (line.text style) := by
  cases line with
  | code level text =>
      rw [Line.text, Unbroken.append_iff]
      exact ⟨Reconcile.Unbroken.pushn (by decide) _, h⟩
  | marker text => exact h
  | blank => exact List.not_mem_nil

variable {style : Style} {level : Nat} {grouped : Bool}

theorem not_mem_splitLines (cs : List Char) : ∀ line ∈ splitLines cs, '\n' ∉ line := by
  fun_induction splitLines cs with
  | case1 => simp
  | case2 cs ih => simpa using ih
  | case3 cs ih => simpa using ih
  | case4 c cs hn _ heq ih =>
      have hc : c ≠ '\n' := fun hc => hn hc
      simpa using hc.symm
  | case5 c cs hn _ line lines heq ih =>
      have hc : c ≠ '\n' := fun hc => hn hc
      rw [heq, List.forall_mem_cons] at ih
      rw [List.forall_mem_cons, List.mem_cons, not_or]
      exact ⟨⟨hc.symm, ih.1⟩, ih.2⟩

def commentTexts (comment : String) : List String :=
  (if comment = "" then [[]] else splitLines comment.toList).map fun line =>
    if line.isEmpty then "#" else "# " ++ String.ofList line

def noteTexts (style : Style) (n : Notes) : List String :=
  n.comments.flatMap commentTexts ++
    match n.location with
    | some location => if style.showLocations then ["# " ++ location.phrase] else []
    | none => []

theorem noteLines_eq (n : Notes) :
    noteLines style level n = (noteTexts style n).map (Line.code level) := by
  have hcomment : commentLines level = fun comment => (commentTexts comment).map (Line.code level) := by
    funext comment
    rw [commentLines, commentTexts, List.map_map]
    rfl
  rw [noteLines, noteTexts, List.map_append, List.map_flatMap, hcomment]
  cases n.location with
  | none => rfl
  | some l => cases style.showLocations <;> rfl

theorem hash_mem_noteTexts (n : Notes) : ∀ t ∈ noteTexts style n, '#' ∈ t.toList := by
  intro t ht
  rw [noteTexts, List.mem_append, List.mem_flatMap] at ht
  rcases ht with ⟨comment, -, ht⟩ | ht
  · obtain ⟨line, -, rfl⟩ := List.mem_map.mp ht
    split
    · decide
    · simp
  · split at ht
    · split at ht
      · simp [List.mem_singleton.mp ht]
      · cases ht
    · cases ht

theorem exists_note {n : Notes} {l : Line} (hl : l ∈ noteLines style level n) :
    ∃ text, l = .code level text ∧ '#' ∈ text.toList := by
  rw [noteLines_eq] at hl
  obtain ⟨text, ht, rfl⟩ := List.mem_map.mp hl
  exact ⟨text, rfl, hash_mem_noteTexts n text ht⟩

theorem exists_param {ps : List Param} {l : Line} (hl : l ∈ paramLines level ps) :
    ∃ p ∈ ps, ∃ last, l = .code level (p.linePhrase last) := by
  induction ps with
  | nil => cases hl
  | cons p ps ih =>
      rcases List.mem_cons.mp hl with rfl | hl
      · exact ⟨p, List.mem_cons_self, _, rfl⟩
      · obtain ⟨q, hq, hline⟩ := ih hl
        exact ⟨q, List.mem_cons_of_mem p hq, hline⟩

theorem unbroken_commentLines (comment : String) :
    ∀ l ∈ commentLines level comment, l.Unbroken := by
  intro l hl
  obtain ⟨line, hline, rfl⟩ := List.mem_map.mp hl
  have hbreak : '\n' ∉ line := by
    split at hline
    · cases List.mem_singleton.mp hline
      simp
    · exact not_mem_splitLines _ line hline
  rw [Line.Unbroken]
  split
  · decide
  · have hhash : Unbroken "# " := by decide
    simpa [hhash, Unbroken] using hbreak

theorem unbroken_noteLines (style : Style) (level : Nat) {n : Notes} (h : ∀ t ∈ n.texts, Unbroken t) :
    ∀ l ∈ noteLines style level n, l.Unbroken := by
  intro l hl
  rw [noteLines, List.mem_append, List.mem_flatMap] at hl
  rcases hl with ⟨comment, -, hl⟩ | hl
  · exact unbroken_commentLines comment l hl
  · cases hn : n.location with
    | none =>
        rw [hn] at hl
        cases hl
    | some location =>
        have hphrase := location.unbroken_phrase fun t ht => h t (by simpa [Notes.texts, hn] using ht)
        have hhash : Unbroken "# " := by decide
        simp only [hn, List.mem_ite_nil_right, List.mem_singleton] at hl
        rw [hl.2, Line.Unbroken]
        simp [hhash, hphrase]

theorem unbroken_visibilityPhrase (v : Visibility) : Unbroken (visibilityPhrase grouped v) := by
  cases grouped <;> cases v <;> decide

theorem unbroken_signatures (level : Nat) {ss : List Signature} (h : ∀ t ∈ ss.flatMap Signature.texts, Unbroken t) :
    ∀ l ∈ ss.map (fun s => Line.code level s.phrase), l.Unbroken := by
  intro l hl
  obtain ⟨s, hs, rfl⟩ := List.mem_map.mp hl
  exact s.unbroken_phrase fun t ht => h t (List.mem_flatMap.mpr ⟨s, hs, ht⟩)

theorem unbroken_paramLines {ps : List Param} (h : ∀ p ∈ ps, ∀ t ∈ p.texts, Unbroken t) :
    ∀ l ∈ paramLines level ps, l.Unbroken := by
  intro l hl
  obtain ⟨p, hp, last, rfl⟩ := exists_param hl
  exact p.unbroken_linePhrase (h p hp) last

theorem unbroken_methodLines {m : Method} (h : ∀ t ∈ (Leaf.method m).texts, Unbroken t) :
    ∀ l ∈ methodLines level grouped m, l.Unbroken := by
  have hname : Unbroken m.name := h m.name (by simp [Leaf.texts])
  have hparams : ∀ p ∈ m.params, ∀ t ∈ p.texts, Unbroken t := fun p hp t ht =>
    h t (by
      simp only [Leaf.texts, List.cons_append, List.mem_cons, List.mem_append, List.mem_flatMap]
      exact Or.inr (Or.inl ⟨p, hp, ht⟩))
  have hsignatures := unbroken_signatures level fun t (ht : t ∈ m.signatures.flatMap Signature.texts) =>
    h t (by simp only [Leaf.texts, List.mem_append]; exact Or.inr ht)
  have hhead : Unbroken (visibilityPhrase grouped m.visibility ++ "def " ++
      (if m.isSingleton then "self." else "") ++ m.name) := by
    have hself : Unbroken (if m.isSingleton then "self." else "") := by split <;> decide
    have hdef : Unbroken "def " := by decide
    simp [unbroken_visibilityPhrase, hself, hdef, hname]
  have hall : Unbroken (commaSeparated (m.params.map Param.phrase)) := by
    apply unbroken_commaSeparated
    rw [List.forall_mem_map]
    exact fun p hp => p.unbroken_phrase (hparams p hp)
  have hopen : Unbroken "(" := by decide
  have hend : Unbroken "; end" := by decide
  have hclose : Unbroken "); end" := by decide
  simp only [methodLines, List.forall_mem_append]
  refine ⟨hsignatures, ?_⟩
  split
  · rw [List.forall_mem_singleton, Line.unbroken_code, Unbroken.append_iff]
    exact ⟨hhead, hend⟩
  · split
    · rw [List.forall_mem_singleton, Line.unbroken_code, Unbroken.append_iff, Unbroken.append_iff,
        Unbroken.append_iff]
      exact ⟨⟨⟨hhead, hopen⟩, hall⟩, hclose⟩
    · rw [List.cons_append, List.forall_mem_cons, List.forall_mem_append, List.forall_mem_singleton,
        Line.unbroken_code, Unbroken.append_iff]
      exact ⟨⟨hhead, hopen⟩, unbroken_paramLines hparams, hclose⟩

theorem Attribute.unbroken_phrase {a : Attribute} (h : ∀ name ∈ a.names, Unbroken name) :
    Unbroken a.phrase := by
  have hkeyword : Unbroken a.kind.keyword := by cases a.kind <;> decide
  have hnames : Unbroken (commaSeparated (a.names.map (":" ++ ·))) := by
    apply unbroken_commaSeparated
    rw [List.forall_mem_map]
    exact fun name hname => Unbroken.append_iff.mpr ⟨by decide, h name hname⟩
  have hblank : Unbroken " " := by decide
  simp [Attribute.phrase, hkeyword, hnames, hblank]

theorem Mixin.unbroken_phrase {m : Mixin} (h : ∀ name ∈ m.names, Unbroken name) :
    Unbroken m.phrase := by
  have hkeyword : Unbroken m.kind.keyword := by cases m.kind <;> decide
  have hblank : Unbroken " " := by decide
  simp [Mixin.phrase, hkeyword, unbroken_commaSeparated h, hblank]

theorem Field.unbroken_phrase {f : Field} (h : ∀ t ∈ (Leaf.field f).texts, Unbroken t) :
    Unbroken f.phrase := by
  obtain ⟨kind, name, type, fallback⟩ := f
  have hname : Unbroken name := h name (by simp [Leaf.texts])
  have htype : Unbroken type := h type (by simp [Leaf.texts])
  cases fallback with
  | none => cases kind <;> simpa [Field.phrase, hname, htype] using (by decide)
  | some value =>
      have hvalue : Unbroken value := h value (by simp [Leaf.texts])
      cases kind <;> simpa [Field.phrase, hname, htype, hvalue] using (by decide)

theorem unbroken_leafLines {l : Leaf} (h : ∀ t ∈ l.texts, Unbroken t) :
    ∀ line ∈ leafLines level grouped l, line.Unbroken := by
  cases l with
  | constant name value | typeMember name value =>
      simp only [Leaf.texts, List.forall_mem_cons] at h
      simpa [leafLines, h.1, h.2.1] using (by decide)
  | method m => exact unbroken_methodLines h
  | «attribute» a =>
      rw [Leaf.texts, List.forall_mem_append] at h
      rw [leafLines, attributeLines, List.forall_mem_append, List.forall_mem_singleton]
      exact ⟨unbroken_signatures level h.2,
        Unbroken.append_iff.mpr ⟨unbroken_visibilityPhrase _, Attribute.unbroken_phrase h.1⟩⟩
  | mixin m => simpa [leafLines] using Mixin.unbroken_phrase h
  | marker v => cases v <;> simpa [leafLines] using (by decide)
  | field f => simpa [leafLines] using Field.unbroken_phrase h
  | enumeration names =>
      rw [leafLines, enumerationLines]
      split
      · simpa using (by decide)
      · rw [List.cons_append, List.forall_mem_cons, List.forall_mem_append, List.forall_mem_map,
          List.forall_mem_singleton, Line.unbroken_code, Line.unbroken_code]
        exact ⟨by decide, fun name hname => Unbroken.append_iff.mpr ⟨h name hname, by decide⟩, by decide⟩
  | helper name =>
      have hname := h name (by simp [Leaf.texts])
      simpa [leafLines, hname] using (by decide)

theorem texts_node (h : Handle) (c : Content) (n : Notes) (cs : List Outline) :
    (Outline.node h c n cs).texts = c.texts ++ n.texts ++ cs.flatMap Outline.texts := by
  simp only [Outline.texts, Outline.subtrees_node, List.flatMap_cons, List.flatMap_assoc]
  rfl

theorem texts_conflict (h : Handle) (form : ConflictForm) (labels : Labels) (n : Notes) (l r : Outline) :
    (Outline.conflict h form labels n l r).texts =
      [labels.left, labels.right] ++ n.texts ++ (l.texts ++ r.texts) := by
  simp [Outline.texts]

theorem eq_blank_of_mem_separator {o : Outline} {os : List Outline} {l : Line}
    (hl : l ∈ separator o os) : l = .blank := by
  unfold separator at hl
  split at hl
  · cases hl
  · split at hl
    · cases hl
    · exact List.mem_singleton.mp hl

theorem forall_mem_siblingLines {P : Line → Prop} (hb : P .blank) {os : List Outline}
    (h : ∀ o ∈ os, ∀ l ∈ lines style level grouped o, P l) :
    ∀ l ∈ siblingLines style level grouped os, P l := by
  induction os with
  | nil => exact List.forall_mem_nil P
  | cons o os ih =>
      have hsep : ∀ l ∈ separator o os, P l := fun l hl => eq_blank_of_mem_separator hl ▸ hb
      rw [siblingLines, List.forall_mem_append, List.forall_mem_append]
      exact ⟨⟨h o (by simp), hsep⟩, ih fun x hx => h x (by simp [hx])⟩

theorem unbroken_sideHeader {o : Outline} (h : ∀ t ∈ o.texts, Unbroken t) (closed : Bool) :
    Unbroken (sideHeader closed o) := by
  unfold sideHeader
  split
  · next k s n cs =>
      rw [texts_node] at h
      have hheader : Unbroken s.header := s.unbroken_header fun t ht => h t (by simp [Content.texts, ht])
      cases closed with
      | true => exact Unbroken.append_iff.mpr ⟨hheader, by decide⟩
      | false => exact hheader
  · decide

theorem texts_notes_subset (o : Outline) : o.notes.texts ⊆ o.texts := by
  intro t ht
  cases o with
  | node h c n cs =>
      rw [texts_node]
      exact List.mem_append_left _ (List.mem_append_right _ ht)
  | conflict h form labels n l r =>
      rw [texts_conflict]
      exact List.mem_append_left _ (List.mem_append_right _ ht)

theorem unbroken_lines {o : Outline} (h : ∀ t ∈ o.texts, Unbroken t) (level : Nat) (grouped : Bool) :
    (∀ l ∈ lines style level grouped o, l.Unbroken) ∧
      ∀ l ∈ bodyLines style level grouped o, l.Unbroken := by
  induction o generalizing level grouped with
  | node k c n cs ih =>
      rw [texts_node, List.forall_mem_append, List.forall_mem_append] at h
      obtain ⟨⟨hc, hn⟩, hcs⟩ := h
      have hbody (level : Nat) (grouped : Bool) :
          ∀ l ∈ siblingLines style level grouped cs, l.Unbroken :=
        forall_mem_siblingLines trivial fun o ho =>
          (ih o ho (fun t ht => hcs t (List.mem_flatMap.mpr ⟨o, ho, ht⟩)) level grouped).1
      constructor
      · have hnotes := unbroken_noteLines style level hn
        cases c with
        | tree | group =>
            simp only [lines, List.forall_mem_append]
            exact ⟨hnotes, hbody level grouped⟩
        | visibilityGroup v =>
            simp only [lines, List.forall_mem_append]
            refine ⟨hnotes, ?_, hbody level true⟩
            cases v <;> cases cs <;> simp [Line.Unbroken, Unbroken, Visibility.keyword]
        | scope s =>
            have hheader := s.unbroken_header hc
            simp only [lines, List.forall_mem_append]
            refine ⟨hnotes, ?_⟩
            split
            · simpa [hheader] using (by decide)
            · rw [List.cons_append, List.forall_mem_cons, List.forall_mem_append]
              exact ⟨hheader, hbody (level + 1) false, by simpa using (by decide)⟩
        | leaf l =>
            simp only [lines, List.forall_mem_append]
            exact ⟨hnotes, unbroken_leafLines hc⟩
      · exact hbody level grouped
  | conflict k form labels n l r ihl ihr =>
      simp only [texts_conflict, List.forall_mem_append, List.forall_mem_cons] at h
      obtain ⟨⟨⟨hleft, hright, -⟩, hn⟩, hl, hr⟩ := h
      have hopen : (Line.marker ("<<<<<<< " ++ labels.left)).Unbroken :=
        Unbroken.append_iff.mpr ⟨by decide, hleft⟩
      have hdivide : (Line.marker "=======").Unbroken := by simpa [Line.Unbroken] using (by decide)
      have hclose : (Line.marker (">>>>>>> " ++ labels.right)).Unbroken :=
        Unbroken.append_iff.mpr ⟨by decide, hright⟩
      constructor
      · cases form with
        | declarations =>
            simp only [lines, List.cons_append, List.forall_mem_cons, List.forall_mem_append]
            exact ⟨hopen, ⟨(ihl hl level grouped).2, hdivide, (ihr hr level grouped).2⟩, hclose, by simp⟩
        | headers =>
            have hlnotes := unbroken_noteLines style level fun t ht => hl t (texts_notes_subset l ht)
            have hrnotes := unbroken_noteLines style level fun t ht => hr t (texts_notes_subset r ht)
            simp only [lines, List.cons_append, List.forall_mem_cons, List.forall_mem_append]
            refine ⟨hopen, ⟨hlnotes, unbroken_sideHeader hl _, hdivide, hrnotes⟩,
              unbroken_sideHeader hr _, hclose, ?_⟩
            split
            · simp
            · rw [List.forall_mem_append]
              exact ⟨(ihl hl (level + 1) false).2, by simpa using (by decide)⟩
      · simp [bodyLines]

theorem unbroken_treeLines {o : Outline} (h : ∀ t ∈ o.texts, Unbroken t)
    (hs : ∀ sigil ∈ style.sigil, Unbroken sigil) : ∀ l ∈ treeLines style o, l.Unbroken := by
  rw [treeLines, List.forall_mem_append]
  constructor
  · cases hsigil : style.sigil with
    | none => simp
    | some sigil =>
        have hline : Unbroken ("# typed: " ++ sigil) :=
          Unbroken.append_iff.mpr ⟨by decide, hs sigil hsigil⟩
        rw [List.forall_mem_cons]
        exact ⟨hline, by split <;> simp [Line.Unbroken]⟩
  · exact (unbroken_lines h 0 false).1

end Layout

end Reconcile
