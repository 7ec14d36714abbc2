import Reconcile.Json.Token
import Reconcile.Json.Writer
import Mathlib.Data.List.TakeWhile
import Mathlib.Data.Option.Basic
import Mathlib.Tactic.ByContra
import Reconcile.Proofs.Texts

namespace Reconcile.Json

/-- The values that are written into documents. -/
inductive Written : Value → Prop
  | null : Written .null
  | bool (b : Bool) : Written (.bool b)
  | word (n : UInt64) : Written (.ofNat n.toNat)
  | text (s : String) : Written (.ofString s)
  | array (items : List Value) (h : ∀ v ∈ items, Written v) : Written (.array items)
  | object (members : List (String × Value)) (h : ∀ m ∈ members, Written m.2) :
      Written (.ofMembers members)

namespace Value

mutual

def tokens : Value → List Token
  | null => [.null]
  | bool b => [.bool b]
  | number n => [.number n]
  | string t => [.string t]
  | array items => .arrayOpen :: itemTokens items ++ [.arrayClose]
  | object members => .objectOpen :: memberTokens members ++ [.objectClose]

def itemTokens : List Value → List Token
  | [] => []
  | [v] => v.tokens
  | v :: vs => v.tokens ++ .comma :: itemTokens vs

def memberTokens : List (Text × Value) → List Token
  | [] => []
  | [(key, v)] => .string key :: .colon :: v.tokens
  | (key, v) :: ms => .string key :: .colon :: v.tokens ++ .comma :: memberTokens ms

end

end Value

/-- Wherever the lexer starts, it reads `ts` from `cs`. -/
def Lexes (cs : List Char) (ts : List Token) : Prop :=
  ∀ before, (cs.foldlM Lexer.step ⟨before, .between⟩ >>= Lexer.finish) = some (before.reverse ++ ts)

def Ended (cs : List Char) : Prop := ∀ c ∈ cs.head?, isDelimiter c = true

/-- The characters `cs` are written for the tokens `ts`. -/
def Spells (cs : List Char) (ts : List Token) : Prop :=
  ∀ rest us, Ended rest → Lexes rest us → Lexes (cs ++ rest) (ts ++ us)

variable {c : Char} {cs cs' word : List Char} {t : Token} {ts ts' : List Token}

theorem lexes_nil : Lexes [] [] := by
  intro before
  simp [Lexer.finish]

theorem tokens?_of_spells (h : Spells cs ts) : tokens? cs = some ts := by
  have hl := h [] [] (by simp [Ended]) lexes_nil []
  simpa [tokens?] using hl

namespace Spells

theorem nil : Spells [] [] := fun _ _ _ h => h

theorem append (h : Spells cs ts) (h' : Spells (c :: cs') ts') (hc : isDelimiter c = true) :
    Spells (cs ++ c :: cs') (ts ++ ts') := by
  intro rest us hr hl
  rw [List.append_assoc, List.append_assoc]
  apply h
  · simpa [Ended] using hc
  · exact h' rest us hr hl

theorem blank (hc : isBlank c = true) (h : Spells cs ts) : Spells (c :: cs) ts := by
  intro rest us hr hl before
  have hstep : Lexer.step ⟨before, .between⟩ c = some ⟨before, .between⟩ := by
    simp [Lexer.step, Lexer.start, hc]
  rw [List.cons_append, List.foldlM_cons, hstep]
  exact h rest us hr hl before

theorem punctuation (hc : punctuation? c = some t) (h : Spells cs ts) : Spells (c :: cs) (t :: ts) := by
  intro rest us hr hl before
  have hplain : isBlank c = false ∧ c ≠ '"' := by
    unfold punctuation? at hc
    split at hc
    all_goals first | exact ⟨rfl, by decide⟩ | cases hc
  have hstep : Lexer.step ⟨before, .between⟩ c = some ⟨t :: before, .between⟩ := by
    simp [Lexer.step, Lexer.start, hplain, hc]
  rw [List.cons_append, List.foldlM_cons, hstep]
  simpa using h rest us hr hl (t :: before)

end Spells

theorem foldlM_word (hw : ∀ c ∈ word, isDelimiter c = false) (before : List Token) (read : List Char) :
    word.foldlM Lexer.step ⟨before, .word read⟩ = some ⟨before, .word (word.reverse ++ read)⟩ := by
  induction word generalizing read with
  | nil => rfl
  | cons c word ih =>
      have hstep : Lexer.step ⟨before, .word read⟩ c = some ⟨before, .word (c :: read)⟩ := by
        simp [Lexer.step, hw c]
      rw [List.foldlM_cons, hstep]
      simpa using ih (fun x hx => hw x (by simp [hx])) (c :: read)

theorem spells_word (hne : word ≠ []) (hw : ∀ c ∈ word, isDelimiter c = false)
    (ht : Token.ofWord? word = some t) : Spells word [t] := by
  intro rest us hr hl before
  obtain ⟨c, word, rfl⟩ := List.exists_cons_of_ne_nil hne
  have hc := hw c (by simp)
  simp only [isDelimiter, Bool.or_eq_false_iff, decide_eq_false_iff_not] at hc
  have hstart : Lexer.step ⟨before, .between⟩ c = some ⟨before, .word [c]⟩ := by
    have hp : punctuation? c = none := by simpa using hc.2
    simp [Lexer.step, Lexer.start, hc.1.1, hc.1.2, hp]
  rw [List.foldlM_append, List.foldlM_cons, hstart]
  simp only [Option.bind_eq_bind, Option.bind_some]
  rw [foldlM_word (fun x hx => hw x (by simp [hx]))]
  have hword : Token.ofWord? (word.reverse ++ [c]).reverse = some t := by simpa using ht
  cases rest with
  | nil =>
      have hus : us = [] := by simpa [Lexer.finish] using (hl []).symm
      subst hus
      simp [Lexer.finish, ht]
  | cons d rest =>
      have hd : isDelimiter d = true := hr d rfl
      have hend : Lexer.step ⟨before, .word (word.reverse ++ [c])⟩ d =
          Lexer.step ⟨t :: before, .between⟩ d := by
        simp only [Lexer.step, hd, if_true, hword, Option.map_some]
      have hrest := hl (t :: before)
      rw [List.foldlM_cons] at hrest
      simp only [Option.bind_some, List.foldlM_cons, hend]
      simpa using hrest

theorem spells_null : Spells "null".toList [.null] :=
  spells_word (by decide) (by simp [isDelimiter, isBlank, punctuation?]) (by decide)

theorem spells_bool (b : Bool) : Spells (if b then "true" else "false").toList [.bool b] := by
  cases b with
  | true => exact spells_word (by decide) (by simp [isDelimiter, isBlank, punctuation?]) (by decide)
  | false => exact spells_word (by decide) (by simp [isDelimiter, isBlank, punctuation?]) (by decide)

theorem head_toDigits_ne (n : Nat) (hn : 0 < n) : ∀ c ∈ (Nat.toDigits 10 n).head?, c ≠ '0' := by
  induction n using Nat.strongRecOn with
  | ind n ih =>
      rw [Nat.toDigits_eq_if (by decide)]
      split
      · next hlt =>
          have hdigits : ∀ m < 10, 0 < m → m.digitChar ≠ '0' := by decide
          simpa using hdigits n hlt hn
      · have hhead := ih (n / 10) (by omega) (by omega)
        rw [List.head?_append]
        cases hd : (Nat.toDigits 10 (n / 10)).head? with
        | none => exact absurd (List.head?_eq_none_iff.mp hd) Nat.toDigits_ne_nil
        | some d => simpa [hd] using hhead

theorem isWhole_toDigits (n : Nat) : Numeral.isWhole (Nat.toDigits 10 n) = true := by
  have hall : ∀ c ∈ Nat.toDigits 10 n, c.isDigit = true := fun c =>
    Nat.isDigit_of_mem_toDigits (by decide) (by decide)
  rcases Nat.eq_zero_or_pos n with rfl | hn
  · decide
  · have hhead := head_toDigits_ne n hn
    cases hd : Nat.toDigits 10 n with
    | nil => exact absurd hd Nat.toDigits_ne_nil
    | cons c digits =>
        rw [hd] at hall hhead
        have hc : c ≠ '0' := by simpa using hhead
        unfold Numeral.isWhole
        split
        · next he => cases he
        · rfl
        · next c' digits' _ he =>
            cases he
            rw [List.all_eq_true.mpr hall]
            simp [hc]

theorem digitsValue_eq (digits : List Char) : digitsValue digits = Nat.ofDigitChars 10 digits 0 := by
  rw [digitsValue, Nat.ofDigitChars]
  congr 1
  funext n c
  rw [Nat.mul_comm, digitValue]

theorem takeWhile_toDigits {p : Char → Bool} (hp : ∀ c : Char, c.isDigit = true → p c = true) (n : Nat) :
    (Nat.toDigits 10 n).takeWhile p = Nat.toDigits 10 n ∧ (Nat.toDigits 10 n).dropWhile p = [] := by
  have hall : ∀ c ∈ Nat.toDigits 10 n, p c = true := fun c hc =>
    hp c (Nat.isDigit_of_mem_toDigits (by decide) (by decide) hc)
  constructor
  · exact List.takeWhile_eq_self_iff.mpr hall
  · exact List.dropWhile_eq_nil_iff.mpr hall

theorem ofChars?_toDigits (n : Nat) :
    Numeral.ofChars? (Nat.toDigits 10 n) = some (.natural n) := by
  have hplain := takeWhile_toDigits (p := fun c => c ≠ 'e' && c ≠ 'E')
    (fun c hc => by
      have he : c ≠ 'e' := by rintro rfl; cases hc
      have hE : c ≠ 'E' := by rintro rfl; cases hc
      simp [he, hE]) n
  have hwhole := takeWhile_toDigits (p := (· ≠ '.'))
    (fun c hc => by
      have hdot : c ≠ '.' := by rintro rfl; cases hc
      simp [hdot]) n
  have hunsigned : Numeral.unsigned? false (Nat.toDigits 10 n) = some (.natural n) := by
    simp only [Numeral.unsigned?, hplain, hwhole, isWhole_toDigits, digitsValue_eq,
      Nat.ofDigitChars_toDigits (show 1 < 10 by decide) (show 10 ≤ 10 by decide)]
    rfl
  unfold Numeral.ofChars?
  split
  · next cs he =>
      have hminus : '-' ∈ Nat.toDigits 10 n := by rw [he]; simp
      cases Nat.isDigit_of_mem_toDigits (by decide) (by decide) hminus
  · exact hunsigned

theorem isDelimiter_of_isDigit (hc : c.isDigit = true) : isDelimiter c = false := by
  have hpunctuation : punctuation? c = none := by
    unfold punctuation?
    split
    all_goals first | rfl | cases hc
  have hblank (b : Char) (hb : b.isDigit = false) : c ≠ b := by
    rintro rfl
    rw [hc] at hb
    cases hb
  simp [isDelimiter, isBlank, hpunctuation, hblank]

theorem spells_natural (n : Nat) : Spells (toString n).toList [.number (.natural n)] := by
  have hdigit : ∀ c ∈ Nat.toDigits 10 n, c.isDigit = true := fun c =>
    Nat.isDigit_of_mem_toDigits (by decide) (by decide)
  have hword (word : List Char) {c : Char} (hc : c ∈ word) (hn : c.isDigit = false) :
      Nat.toDigits 10 n ≠ word := by
    rintro rfl
    rw [hdigit c hc] at hn
    cases hn
  rw [Nat.toString_eq_repr, Nat.toList_repr]
  apply spells_word Nat.toDigits_ne_nil
  · exact fun c hc => isDelimiter_of_isDigit (hdigit c hc)
  · have hn := hword ['n', 'u', 'l', 'l'] (c := 'n') (by simp) (by decide)
    have ht := hword ['t', 'r', 'u', 'e'] (c := 't') (by simp) (by decide)
    have hf := hword ['f', 'a', 'l', 's', 'e'] (c := 'f') (by simp) (by decide)
    simp [Token.ofWord?, hn, ht, hf, ofChars?_toDigits]

theorem charsOfUnits_toNat (cs : List Char) : charsOfUnits (cs.map Char.toNat) = some cs := by
  have hsurrogate (c : Char) : isHighSurrogate c.toNat = false ∧ isLowSurrogate c.toNat = false := by
    have hc : c.toNat < 0xD800 ∨ 0xDFFF < c.toNat ∧ c.toNat < 0x110000 := c.valid
    simp only [isHighSurrogate, isLowSurrogate, Bool.and_eq_false_iff, decide_eq_false_iff_not]
    omega
  induction cs with
  | nil => rfl
  | cons c cs ih =>
      cases cs with
      | nil => simp [charsOfUnits, hsurrogate]
      | cons d cs =>
          rw [List.map_cons] at ih
          simp [charsOfUnits, hsurrogate, ih]

theorem hexDigit?_hexDigit : ∀ n < 16, hexDigit? (hexDigit n) = some n := by
  decide

theorem foldlM_escape (c : Char) (before : List Token) (read : List Nat) :
    (escape c).foldlM Lexer.step ⟨before, .string read⟩ =
      some ⟨before, .string (c.toNat :: read)⟩ := by
  unfold escape
  by_cases hquote : c = '"'
  · subst hquote
    rfl
  by_cases hslash : c = '\\'
  · subst hslash
    rfl
  by_cases hfeed : c = '\n'
  · subst hfeed
    rfl
  by_cases hreturn : c = '\r'
  · subst hreturn
    rfl
  by_cases htab : c = '\t'
  · subst htab
    rfl
  rw [if_neg hquote, if_neg hslash, if_neg hfeed, if_neg hreturn, if_neg htab]
  by_cases hback : c.toNat = 0x08
  · rw [if_pos hback, hback]
    rfl
  by_cases hform : c.toNat = 0x0C
  · rw [if_neg hback, if_pos hform, hform]
    rfl
  rw [if_neg hback, if_neg hform]
  by_cases hcontrol : c.toNat < 0x20
  · -- The digits of the code are written with two zeros in front of them.
    have hhigh := hexDigit?_hexDigit (c.toNat / 16) (by omega)
    have hlow := hexDigit?_hexDigit (c.toNat % 16) (by omega)
    have hzero : hexDigit? '0' = some 0 := by decide
    have hvalue : c.toNat / 16 * 16 + c.toNat % 16 = c.toNat := by omega
    rw [if_pos hcontrol]
    simp [Lexer.step, hzero, hhigh, hlow, hvalue]
  · rw [if_neg hcontrol]
    simp [Lexer.step, hquote, hslash, hcontrol]

theorem foldlM_escapes (cs : List Char) (before : List Token) (read : List Nat) :
    (cs.flatMap escape).foldlM Lexer.step ⟨before, .string read⟩ =
      some ⟨before, .string ((cs.map Char.toNat).reverse ++ read)⟩ := by
  induction cs generalizing read with
  | nil => rfl
  | cons c cs ih =>
      rw [List.flatMap_cons, List.foldlM_append, foldlM_escape]
      simpa using ih (c.toNat :: read)

theorem Spells.quoted (s : String) (h : Spells cs ts) :
    Spells ((Json.quoted (some s)).toList ++ cs) (.string (some s) :: ts) := by
  intro rest us hr hl before
  have hopen : Lexer.step ⟨before, .between⟩ '"' = some ⟨before, .string []⟩ := rfl
  have hclose : Lexer.step ⟨before, .string (s.toList.map Char.toNat).reverse⟩ '"' =
      some ⟨.string (some s) :: before, .between⟩ := by
    simp [Lexer.step, charsOfUnits_toNat]
  have hquoted : (Json.quoted (some s)).toList ++ cs ++ rest =
      '"' :: (s.toList.flatMap escape ++ '"' :: (cs ++ rest)) := by
    simp [Json.quoted]
  have hbody : (s.toList.flatMap escape).foldlM Lexer.step ⟨before, .string []⟩ =
      some ⟨before, .string (s.toList.map Char.toNat).reverse⟩ := by
    simpa using foldlM_escapes s.toList before []
  rw [hquoted, List.foldlM_cons, hopen]
  simp only [Option.bind_eq_bind, Option.bind_some]
  rw [List.foldlM_append, hbody]
  simp only [Option.bind_eq_bind, Option.bind_some, List.foldlM_cons, hclose]
  simpa using h rest us hr hl (.string (some s) :: before)

theorem spells_text (s : String) : Spells (quoted (some s)).toList [.string (some s)] := by
  simpa using Spells.nil.quoted s

variable {α : Type} {gap gap' : List Char} {o c : Char} {t' tc : Token}

namespace Spells

theorem blanks (hgap : ∀ b ∈ gap, isBlank b = true) (h : Spells cs ts) : Spells (gap ++ cs) ts := by
  induction gap with
  | nil => exact h
  | cons b gap ih => exact (ih fun x hx => hgap x (by simp [hx])).blank (hgap b (by simp))

theorem intercalate {text : α → List Char} {read : α → List Token} {xs : List α}
    (hgap : ∀ b ∈ gap, isBlank b = true) (h : ∀ x ∈ xs, Spells (text x) (read x)) :
    Spells ((',' :: gap).intercalate (xs.map text)) ([.comma].intercalate (xs.map read)) := by
  induction xs with
  | nil => exact Spells.nil
  | cons x xs ih =>
      cases xs with
      | nil => simpa using h x (by simp)
      | cons y ys =>
          have hrest := ih fun z hz => h z (by simp [hz])
          have hcomma := (hrest.blanks hgap).punctuation (c := ',') (t := .comma) rfl
          simpa [List.intercalate] using (h x (by simp)).append hcomma rfl

theorem enclosed (ho : punctuation? o = some t') (hc : punctuation? c = some tc)
    (hgap : ∀ b ∈ gap, isBlank b = true) (hgap' : ∀ b ∈ gap', isBlank b = true) (h : Spells cs ts) :
    Spells (o :: (gap ++ (cs ++ (gap' ++ [c])))) (t' :: (ts ++ [tc])) := by
  have hdelimiter (b : Char) (hb : isBlank b = true) : isDelimiter b = true := by
    simp [isDelimiter, hb]
  have hclose : Spells (gap' ++ [c]) [tc] := (Spells.nil.punctuation hc).blanks hgap'
  have hinner : Spells (cs ++ (gap' ++ [c])) (ts ++ [tc]) := by
    cases gap' with
    | nil => exact h.append hclose (by simp [isDelimiter, hc])
    | cons b gap' => exact h.append hclose (hdelimiter b (hgap' b (by simp)))
  exact (hinner.blanks hgap).punctuation ho

theorem member (key : String) (hgap : ∀ b ∈ gap, isBlank b = true) (h : Spells cs ts) :
    Spells ((Json.quoted (some key)).toList ++ ':' :: (gap ++ cs))
      (.string (some key) :: .colon :: ts) :=
  ((h.blanks hgap).punctuation (c := ':') rfl).quoted key

end Spells

theorem isBlank_lineBreak (level : Nat) : ∀ b ∈ (lineBreak level).toList, isBlank b = true := by
  intro b hb
  rw [lineBreak, toList_pushn, List.mem_append, List.mem_replicate] at hb
  rcases hb with hb | ⟨-, rfl⟩
  · simp at hb
    subst hb
    rfl
  · rfl

namespace Value

def memberToken (m : Text × Value) : List Token := .string m.1 :: .colon :: m.2.tokens

theorem itemTokens_eq (items : List Value) :
    itemTokens items = [.comma].intercalate (items.map tokens) := by
  induction items with
  | nil => rfl
  | cons v vs ih => cases vs <;> simp_all [itemTokens, List.intercalate]

theorem memberTokens_eq (members : List (Text × Value)) :
    memberTokens members = [.comma].intercalate (members.map memberToken) := by
  induction members with
  | nil => rfl
  | cons m ms ih => cases ms <;> simp_all [memberTokens, memberToken, List.intercalate]

theorem toList_compactItems (items : List Value) :
    (compactItems items).toList = [','].intercalate (items.map fun v => v.compact.toList) := by
  induction items with
  | nil => rfl
  | cons v vs ih => cases vs <;> simp_all [compactItems, List.intercalate]

theorem toList_compactMembers (members : List (Text × Value)) :
    (compactMembers members).toList =
      [','].intercalate (members.map fun m => (quoted m.1).toList ++ ':' :: m.2.compact.toList) := by
  induction members with
  | nil => rfl
  | cons m ms ih => cases ms <;> simp_all [compactMembers, List.intercalate]

theorem toList_prettyItems (level : Nat) (items : List Value) :
    (prettyItems level items).toList =
      (',' :: (lineBreak level).toList).intercalate (items.map fun v => (v.prettyAt level).toList) := by
  induction items with
  | nil => rfl
  | cons v vs ih => cases vs <;> simp_all [prettyItems, List.intercalate]

theorem toList_prettyMembers (level : Nat) (members : List (Text × Value)) :
    (prettyMembers level members).toList = (',' :: (lineBreak level).toList).intercalate
      (members.map fun m => (quoted m.1).toList ++ ':' :: ' ' :: (m.2.prettyAt level).toList) := by
  induction members with
  | nil => rfl
  | cons m ms ih => cases ms <;> simp_all [prettyMembers, List.intercalate]

end Value

open Value

theorem Spells.members (text : Value → List Char) {members : List (String × Value)}
    (hgap : ∀ b ∈ gap, isBlank b = true) (hgap' : ∀ b ∈ gap', isBlank b = true)
    (h : ∀ m ∈ members, Spells (text m.2) m.2.tokens) :
    Spells ((',' :: gap).intercalate ((members.map fun (key, v) => (some key, v)).map fun m =>
        (Json.quoted m.1).toList ++ ':' :: (gap' ++ text m.2)))
      (memberTokens (members.map fun (key, v) => (some key, v))) := by
  rw [memberTokens_eq]
  apply Spells.intercalate hgap
  intro m hm
  obtain ⟨⟨key, v⟩, hkey, rfl⟩ := List.mem_map.mp hm
  exact (h (key, v) hkey).member key hgap'

theorem Written.spells_compact {v : Value} (hv : Written v) : Spells v.compact.toList v.tokens := by
  have hnone : ∀ b ∈ ([] : List Char), isBlank b = true := by simp
  induction hv with
  | null => exact spells_null
  | bool b => exact spells_bool b
  | word n => exact spells_natural n.toNat
  | text s => exact spells_text s
  | array items _ ih =>
      have hitems := Spells.intercalate hnone ih
      rw [← toList_compactItems, ← itemTokens_eq] at hitems
      simpa [compact, tokens] using hitems.enclosed (o := '[') (c := ']') rfl rfl hnone hnone
  | object members _ ih =>
      have hmembers := Spells.members (fun v => v.compact.toList) hnone hnone ih
      simp only [List.nil_append, ← toList_compactMembers] at hmembers
      simpa [ofMembers, compact, tokens] using
        hmembers.enclosed (o := '\x7b') (c := '\x7d') rfl rfl hnone hnone

theorem Written.spells_prettyAt {v : Value} (hv : Written v) (level : Nat) :
    Spells (v.prettyAt level).toList v.tokens := by
  have hblank : ∀ b ∈ [' '], isBlank b = true := by simp [isBlank]
  induction hv generalizing level with
  | null => exact spells_null
  | bool b => exact spells_bool b
  | word n => exact spells_natural n.toNat
  | text s => exact spells_text s
  | array items h ih =>
      cases items with
      | nil => exact (Written.array [] h).spells_compact
      | cons v vs =>
          have hitems := Spells.intercalate (isBlank_lineBreak (level + 1)) fun v hv =>
            ih v hv (level + 1)
          rw [← toList_prettyItems, ← itemTokens_eq] at hitems
          simpa [prettyAt, tokens] using hitems.enclosed (o := '[') (c := ']') rfl rfl
            (isBlank_lineBreak (level + 1)) (isBlank_lineBreak level)
  | object members h ih =>
      cases members with
      | nil => exact (Written.object [] h).spells_compact
      | cons m ms =>
          have hmembers := Spells.members (fun v => (v.prettyAt (level + 1)).toList)
            (isBlank_lineBreak (level + 1)) hblank fun m hm => ih m hm (level + 1)
          simp only [List.singleton_append, ← toList_prettyMembers] at hmembers
          simpa [ofMembers, prettyAt, tokens] using hmembers.enclosed (o := '\x7b') (c := '\x7d')
            rfl rfl (isBlank_lineBreak (level + 1)) (isBlank_lineBreak level)

end Reconcile.Json
