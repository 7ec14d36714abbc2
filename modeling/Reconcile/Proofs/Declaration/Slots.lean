import Reconcile.Proofs.Declaration.Agreement

namespace Reconcile

def isWordChar (c : Char) : Bool := c.isAlphanum || c == '_' || decide (127 < c.toNat)

def isWord (cs : List Char) : Bool := !cs.isEmpty && cs.all isWordChar

def isMethodName (cs : List Char) : Bool :=
  isWord (if cs.getLast?.any ['?', '!', '='].contains then cs.dropLast else cs)

def isCapitalized (cs : List Char) : Bool :=
  isWord cs && cs.head?.any fun c => c.isUpper || decide (127 < c.toNat)

def Scope.isOrdinary (s : Scope) : Bool := s.name?.all fun name => isWord name.toList

/-- Whether all names are ordinary ones. What a mixin names may be any text. -/
def Leaf.isOrdinary : Leaf → Bool
  | .constant name _ | .helper name => isWord name.toList
  | .method m => isMethodName m.name.toList
  | .attribute a => a.names.all fun name => isWord name.toList
  | .field f => isWord f.name.toList
  | .typeMember name _ => isCapitalized name.toList
  | .mixin _ | .marker _ | .enumeration _ => true

/-- What a declaration can be in its scope. -/
inductive Slot where
  /-- A scope, a constant or a singleton method. -/
  | constant (name : String)
  /-- An instance method, or what an attribute or a field is read or written by. -/
  | method (name : String)
  | mixin (kind : MixinKind) (target : String)
  | enums
  | helper (name : String)
  | typeMember (name : String)
  deriving DecidableEq

def Scope.label : Scope → String
  | .moduleNamed name | .classNamed name _ => name
  | .singleton => "<self>"

def Leaf.slots : Leaf → List Slot
  | .constant name _ => [.constant name]
  | .method m => [if m.isSingleton then .constant m.name else .method m.name]
  | .attribute a => a.names.flatMap fun name =>
      match a.kind with
      | .reader => [.method name]
      | .writer => [.method (name ++ "=")]
      | .accessor => [.method name, .method (name ++ "=")]
  | .mixin m => m.names.map (.mixin m.kind)
  | .marker _ => []
  | .field f =>
      match f.kind with
      | .prop => [.method f.name, .method (f.name ++ "=")]
      | .fixed => [.method f.name]
  | .enumeration _ => [.enums]
  | .helper name => [.helper name]
  | .typeMember name _ => [.typeMember name]

def chainName (chain : List String) : String :=
  chain.foldr (fun label outer => outer ++ "::" ++ label) ""

namespace Slot

def text : Slot → String
  | constant name => "::" ++ name
  | method name => "#" ++ name
  | mixin kind target => "." ++ kind.keyword ++ "(" ++ target ++ ")"
  | enums => ".enums"
  | helper name => "." ++ name ++ "!"
  | typeMember name => "." ++ name

/-- The key of a slot in a scope, where `chain` names the scopes from the inside to the outside. -/
def key (chain : List String) (s : Slot) : String := chainName chain ++ s.text

end Slot

def isLabel (name : String) : Bool := isPlain name && !name.toList.contains ':'

theorem not_mem_of_isLabel {name : String} (h : isLabel name = true) : ':' ∉ name.toList := by
  simpa using (Bool.and_eq_true_iff.mp h).2

theorem isPlain_chainName {chain : List String} (h : ∀ label ∈ chain, isLabel label = true) :
    isPlain (chainName chain) = true := by
  induction chain with
  | nil => rfl
  | cons label chain ih =>
      rw [List.forall_mem_cons] at h
      exact isPlain_append (isPlain_append (ih h.2) (by decide)) (Bool.and_eq_true_iff.mp h.1).1

theorem chainName_inj {chain chain' : List String} (h : ∀ label ∈ chain, isLabel label = true)
    (h' : ∀ label ∈ chain', isLabel label = true) (he : chainName chain = chainName chain') :
    chain = chain' := by
  have hne (label : String) (rest : List String) : chainName (label :: rest) ≠ "" := by
    intro hnil
    simpa [chainName] using congrArg String.toList hnil
  induction chain generalizing chain' with
  | nil =>
      cases chain' with
      | nil => rfl
      | cons label' chain' => exact absurd he.symm (hne label' chain')
  | cons label chain ih =>
      cases chain' with
      | nil => exact absurd he (hne label chain)
      | cons label' chain' =>
          rw [List.forall_mem_cons] at h h'
          have hcut : ((chainName chain).toList ++ [':']) ++ ':' :: label.toList =
              ((chainName chain').toList ++ [':']) ++ ':' :: label'.toList := by
            simpa [chainName] using congrArg String.toList he
          obtain ⟨hchain, hlabel⟩ :=
            cut_last_unique (not_mem_of_isLabel h.1) (not_mem_of_isLabel h'.1) hcut
          rw [List.append_cancel_right_eq, String.toList_inj] at hchain
          rw [String.toList_inj.mp hlabel, ih h.2 h'.2 hchain]

section Words

variable {cs : List Char} {c : Char}

theorem isWordChar_of_mem (h : isWord cs = true) (hc : c ∈ cs) : isWordChar c = true :=
  List.all_eq_true.mp (Bool.and_eq_true_iff.mp h).2 c hc

theorem not_mem_of_isWord (h : isWord cs = true) (hc : isWordChar c = false) : c ∉ cs := fun hm => by
  rw [isWordChar_of_mem h hm] at hc
  cases hc

theorem isLabel_of_forall {name : String} (h : ∀ c ∈ name.toList, c ≠ '#' ∧ c ≠ '.' ∧ c ≠ ':') :
    isLabel name = true := by
  simp only [isLabel, isPlain, Bool.and_eq_true, List.all_eq_true, Bool.not_eq_true',
    List.contains_eq_mem, decide_eq_false_iff_not, decide_eq_true_eq]
  exact ⟨fun c hc => ⟨(h c hc).1, (h c hc).2.1⟩, fun hm => (h ':' hm).2.2 rfl⟩

theorem ne_separator_of_isWord (h : isWord cs = true) (hc : c ∈ cs) : c ≠ '#' ∧ c ≠ '.' ∧ c ≠ ':' := by
  have hne {sep : Char} (hs : isWordChar sep = false) : c ≠ sep :=
    ne_of_mem_of_not_mem hc (not_mem_of_isWord h hs)
  exact ⟨hne (by decide), hne (by decide), hne (by decide)⟩

theorem isLabel_of_isWord {name : String} (h : isWord name.toList = true) : isLabel name = true :=
  isLabel_of_forall fun _ hc => ne_separator_of_isWord h hc

theorem isLabel_of_isMethodName {name : String} (h : isMethodName name.toList = true) :
    isLabel name = true := by
  rw [isMethodName] at h
  split at h
  · next hmark =>
      obtain ⟨mark, hlast, hmark⟩ := (Option.any_eq_true _ _).mp hmark
      apply isLabel_of_forall
      intro c hc
      rw [← List.dropLast_append_getLast? mark hlast, List.mem_append, List.mem_singleton] at hc
      rcases hc with hc | rfl
      · exact ne_separator_of_isWord h hc
      · revert hmark
        simp only [List.contains_eq_mem, decide_eq_true_eq, List.mem_cons, List.not_mem_nil, or_false]
        rintro (rfl | rfl | rfl) <;> decide
  · exact isLabel_of_isWord h

end Words

theorem Scope.isLabel_label {s : Scope} (h : s.isOrdinary = true) : isLabel s.label = true := by
  cases s with
  | singleton => decide
  | moduleNamed name | classNamed name => exact isLabel_of_isWord h

theorem Scope.qualify_eq {s : Scope} (h : s.isOrdinary = true) (outer : String) :
    s.qualify outer = outer ++ "::" ++ s.label := by
  have hrelative {name : String} (hn : isWord name.toList = true) : isAbsolute name = false := by
    unfold isAbsolute
    split
    · next he => exact absurd (he ▸ List.mem_cons_self) (not_mem_of_isWord hn (c := ':') (by decide))
    · rfl
  cases s with
  | singleton =>
      rw [String.append_assoc]
      rfl
  | moduleNamed name | classNamed name => simp [qualify, hrelative h, label]

namespace Slot

def isOrdinary : Slot → Bool
  | constant name => isLabel name
  | helper name => isWord name.toList
  | typeMember name => isCapitalized name.toList
  | method _ | mixin .. | enums => true

variable {s t : Slot}

def read : List Char → Slot
  | '#' :: name => method (.ofList name)
  | '.' :: rest =>
      if '(' ∈ rest then
        let target := String.ofList ((rest.dropWhile (· ≠ '(')).tail.dropLast)
        match rest.takeWhile (· ≠ '(') with
        | 'i' :: _ => mixin .inclusion target
        | 'e' :: _ => mixin .extension target
        | _ => mixin .classMethods target
      else if '!' ∈ rest then helper (.ofList rest.dropLast)
      else if rest.head? = some 'e' then enums
      else typeMember (.ofList rest)
  | text => constant (.ofList (text.drop 2))

theorem read_text (hs : s.isOrdinary = true) : read s.text.toList = s := by
  cases s with
  | constant name => simp [text, read]
  | method name => simp [text, read]
  | mixin kind target => cases kind <;> simp [text, read, MixinKind.keyword]
  | enums => decide
  | helper name =>
      have hparen : '(' ∉ name.toList := not_mem_of_isWord hs (by decide)
      simp [text, read, hparen]
  | typeMember name =>
      obtain ⟨hword, hhead⟩ := Bool.and_eq_true_iff.mp hs
      have hparen : '(' ∉ name.toList := not_mem_of_isWord hword (by decide)
      have hmark : '!' ∉ name.toList := not_mem_of_isWord hword (by decide)
      have hhead : name.toList.head? ≠ some 'e' := by
        intro he
        rw [he] at hhead
        revert hhead
        decide
      simp [text, read, hparen, hmark, hhead]

theorem key_constant (chain : List String) (name : String) :
    (constant name).key chain = chainName (name :: chain) := by
  simp [key, text, chainName, String.append_assoc]

theorem constant_or_separated (s : Slot) : (∃ name, s = constant name) ∨
    ∃ sep rest, (sep = '#' ∨ sep = '.') ∧ s.text.toList = sep :: rest := by
  cases s with
  | constant name => exact Or.inl ⟨name, rfl⟩
  | _ => exact Or.inr (by simp [text])

/-- A key tells the names of the scopes and the slot. -/
theorem key_inj {chain chain' : List String} (h : ∀ label ∈ chain, isLabel label = true)
    (h' : ∀ label ∈ chain', isLabel label = true) (hs : s.isOrdinary = true) (ht : t.isOrdinary = true)
    (he : s.key chain = t.key chain') : chain = chain' ∧ s = t := by
  have hfree {chain : List String} (h : ∀ label ∈ chain, isLabel label = true) :
      ∀ c ∈ (chainName chain).toList, ¬ (c = '#' ∨ c = '.') := by
    have := not_mem_of_isPlain (isPlain_chainName h)
    rintro c hc (rfl | rfl)
    · exact this.1 hc
    · exact this.2 hc
  -- Only a key with a separator is the key of anything but a constant.
  have hmixed {chain chain' : List String} {t : Slot} {name : String} {sep : Char} {rest : List Char}
      (h : ∀ label ∈ name :: chain, isLabel label = true) (hsep : sep = '#' ∨ sep = '.')
      (ht : t.text.toList = sep :: rest) (he : (constant name).key chain = t.key chain') : False := by
    rw [key_constant, key] at he
    apply hfree h sep _ hsep
    rw [he, String.toList_append, ht]
    exact List.mem_append_right _ List.mem_cons_self
  rcases constant_or_separated s with ⟨a, rfl⟩ | ⟨sep, rest, hsep, hrest⟩ <;>
    rcases constant_or_separated t with ⟨b, rfl⟩ | ⟨sep', rest', hsep', hrest'⟩
  · rw [key_constant, key_constant] at he
    cases chainName_inj (List.forall_mem_cons.mpr ⟨hs, h⟩) (List.forall_mem_cons.mpr ⟨ht, h'⟩) he
    exact ⟨rfl, rfl⟩
  · exact (hmixed (List.forall_mem_cons.mpr ⟨hs, h⟩) hsep' hrest' he).elim
  · exact (hmixed (List.forall_mem_cons.mpr ⟨ht, h'⟩) hsep hrest he.symm).elim
  · have hl := congrArg String.toList he
    rw [key, key, String.toList_append, String.toList_append, hrest, hrest'] at hl
    obtain ⟨hchain, htext⟩ := cut_unique (hfree h) (hfree h') hsep hsep' hl
    rw [← hrest, ← hrest'] at htext
    refine ⟨chainName_inj h h' (String.toList_inj.mp hchain), ?_⟩
    rw [← read_text hs, htext, read_text ht]

/-- A name with a separator in it can be taken for a chain of names. -/
example : (constant "B").key ["A"] = (constant "A::B").key [] := by decide

end Slot

theorem Leaf.keys_eq_map_slots (l : Leaf) (chain : List String) :
    l.keys (chainName chain) = l.slots.map (Slot.key chain) := by
  cases l with
  | constant | enumeration | helper | typeMember =>
      simp [keys, slots, Slot.key, Slot.text, String.append_assoc]
  | marker => rfl
  | method m =>
      cases hm : m.isSingleton <;> simp [keys, slots, hm, Slot.key, Slot.text, String.append_assoc]
  | mixin m => simp [keys, slots, Slot.key, Slot.text, String.append_assoc]
  | field f => cases hf : f.kind <;> simp [keys, slots, hf, Slot.key, Slot.text, String.append_assoc]
  | _ a =>
      simp only [keys, Attribute.keys, slots, List.map_flatMap]
      congr 1
      funext name
      cases a.kind <;> simp [Slot.key, Slot.text, String.append_assoc]

theorem Leaf.isOrdinary_slots {l : Leaf} (h : l.isOrdinary = true) :
    ∀ s ∈ l.slots, s.isOrdinary = true := by
  cases l with
  | constant name => simpa [slots, Slot.isOrdinary] using isLabel_of_isWord h
  | method m =>
      cases hm : m.isSingleton <;> simp [slots, hm, Slot.isOrdinary, isLabel_of_isMethodName h]
  | mixin | marker | enumeration => simp [slots, Slot.isOrdinary]
  | field f => cases hf : f.kind <;> simp [slots, hf, Slot.isOrdinary]
  | helper | typeMember => simpa [slots, Slot.isOrdinary, isOrdinary] using h
  | _ a =>
      intro s hs
      obtain ⟨name, -, hs⟩ := List.mem_flatMap.mp hs
      split at hs <;> grind [Slot.isOrdinary]

end Reconcile
