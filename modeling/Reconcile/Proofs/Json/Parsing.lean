import Mathlib.Data.List.Basic
import Reconcile.Json.Parser
import Reconcile.Proofs.Json.Lexing

namespace Reconcile.Json

open Reconcile.Json.Parser

theorem Value.induction {P : Value → Prop} (null : P .null) (bool : ∀ b, P (.bool b))
    (number : ∀ n, P (.number n)) (string : ∀ t, P (.string t))
    (array : ∀ items, (∀ v ∈ items, P v) → P (.array items))
    (object : ∀ members, (∀ m ∈ members, P m.2) → P (.object members)) (v : Value) : P v :=
  @Value.rec P (fun items => ∀ v ∈ items, P v) (fun members => ∀ m ∈ members, P m.2) (fun m => P m.2)
    null bool number string array object (by simp)
    (by intro v vs hv hvs; simpa using ⟨hv, hvs⟩) (by simp)
    (by intro m ms hm hms; simpa using ⟨hm, fun key v => hms (key, v)⟩) (fun _ _ hv => hv) v

/-- From `s` the parser takes the tokens `ts` and comes to `s'`. -/
def Takes (s : State) (ts : List Token) (s' : State) : Prop := ts.foldlM Parser.step s = some s'

namespace Takes

variable {s s' s'' : State} {t : Token} {ts ts' : List Token}

theorem nil : Takes s [] s := rfl

theorem cons (h : Parser.step s t = some s') (h' : Takes s' ts s'') : Takes s (t :: ts) s'' := by
  unfold Takes
  rw [List.foldlM_cons, h]
  exact h'

theorem append (h : Takes s ts s') (h' : Takes s' ts' s'') : Takes s (ts ++ ts') s'' := by
  unfold Takes
  rw [List.foldlM_append, h]
  exact h'

theorem snoc (h : Takes s ts s') (h' : Parser.step s' t = some s'') : Takes s (ts ++ [t]) s'' :=
  h.append (nil.cons h')

end Takes

variable {stack : List Parser.Frame} {s : State} {v : Value}

theorem takes_item {ts : List Token} (hne : ts ≠ []) (h : Takes (.value (.array [] :: stack)) ts s) :
    Takes (.item stack) ts s := by
  obtain ⟨t, ts, rfl⟩ := List.exists_cons_of_ne_nil hne
  cases t with
  | arrayClose => cases h
  | _ => exact h

theorem takes_member {ts : List Token} (hne : ts ≠ []) (h : Takes (.key stack []) ts s) :
    Takes (.member stack) ts s := by
  obtain ⟨t, ts, rfl⟩ := List.exists_cons_of_ne_nil hne
  cases t with
  | string key => exact h
  | _ => cases h

theorem takes_items (stack : List Parser.Frame) {items : List Value}
    (ih : ∀ v ∈ items, ∀ stack, Takes (.value stack) v.tokens (.after stack v)) (hne : items ≠ [])
    (read : List Value) :
    Takes (.value (.array read :: stack)) (Value.itemTokens items ++ [.arrayClose])
      (.after stack (.array (read.reverse ++ items))) := by
  induction items generalizing read with
  | nil => exact absurd rfl hne
  | cons v vs ihvs =>
      have hv := ih v (by simp) (.array read :: stack)
      cases vs with
      | nil =>
          apply hv.snoc
          simp [Parser.step]
      | cons w ws =>
          have hrest := ihvs (fun u hu => ih u (by simp [hu])) (by simp) (v :: read)
          rw [Value.itemTokens, List.append_assoc]
          · apply hv.append
            simpa using hrest.cons (t := .comma) rfl
          · simp

theorem takes_members (stack : List Parser.Frame) {members : List (Text × Value)}
    (ih : ∀ m ∈ members, ∀ stack, Takes (.value stack) m.2.tokens (.after stack m.2))
    (hne : members ≠ []) (read : List (Text × Value)) :
    Takes (.key stack read) (Value.memberTokens members ++ [.objectClose])
      (.after stack (.object (read.reverse ++ members))) := by
  induction members generalizing read with
  | nil => exact absurd rfl hne
  | cons m ms ihms =>
      obtain ⟨key, v⟩ := m
      have hv := ih (key, v) (by simp) (.object read key :: stack)
      cases ms with
      | nil =>
          have hclose := hv.snoc (t := .objectClose) rfl
          simpa [Value.memberTokens] using (hclose.cons (t := .colon) rfl).cons (t := .string key) rfl
      | cons m ms =>
          have hrest := ihms (fun u hu => ih u (by simp [hu])) (by simp) ((key, v) :: read)
          have hcomma := hv.append (hrest.cons (t := .comma) rfl)
          simpa [Value.memberTokens] using (hcomma.cons (t := .colon) rfl).cons (t := .string key) rfl

theorem takes_tokens (v : Value) (stack : List Parser.Frame) :
    Takes (.value stack) v.tokens (.after stack v) := by
  induction v using Value.induction generalizing stack with
  | null => rfl
  | bool b => rfl
  | number n => rfl
  | string t => rfl
  | array items ih =>
      cases items with
      | nil => rfl
      | cons v vs =>
          have hitems := takes_item (by simp) (takes_items stack ih (by simp) [])
          exact hitems.cons (t := .arrayOpen) rfl
  | object members ih =>
      cases members with
      | nil => rfl
      | cons m ms =>
          have hmembers := takes_member (by simp) (takes_members stack ih (by simp) [])
          exact hmembers.cons (t := .objectOpen) rfl

theorem ofTokens?_tokens (v : Value) : ofTokens? v.tokens = some v := by
  have h : v.tokens.foldlM Parser.step (.value []) = some (.after [] v) := takes_tokens v []
  simp [ofTokens?, h, Parser.finish]

theorem Written.parse?_compact (hv : Written v) : parse? v.compact = some v := by
  simp [parse?, tokens?_of_spells hv.spells_compact, ofTokens?_tokens]

theorem Written.parse?_pretty (hv : Written v) : parse? v.pretty = some v := by
  simp [parse?, Value.pretty, tokens?_of_spells (hv.spells_prettyAt 0), ofTokens?_tokens]

theorem appendDigits_of_lt {digits : List Char} {s : Nat}
    (h : digits.foldl (fun n c => n * 10 + digitValue c) s < UInt64.size) :
    appendDigits s digits = (digits.foldl (fun n c => n * 10 + digitValue c) s, []) := by
  have hgrows (ds : List Char) (n : Nat) : n ≤ ds.foldl (fun n c => n * 10 + digitValue c) n := by
    induction ds generalizing n with
    | nil => simp
    | cons d ds ih =>
        have hd := ih (n * 10 + digitValue d)
        rw [List.foldl_cons]
        omega
  induction digits generalizing s with
  | nil => rfl
  | cons d ds ih =>
      rw [List.foldl_cons] at h ⊢
      have hd := hgrows ds (s * 10 + digitValue d)
      rw [appendDigits, if_pos (by omega), ih h]

theorem roundToDouble_le {n : Nat} (hn : n ≠ 0) : roundToDouble n ≤ 2 * n := by
  have hunit : 2 ^ (n.log2 - 52) ≤ n :=
    (Nat.pow_le_pow_right (by decide) (Nat.sub_le n.log2 52)).trans (Nat.log2_self_le hn)
  have hkept := Nat.div_mul_le_self n (2 ^ (n.log2 - 52))
  unfold roundToDouble
  simp only [Nat.pow_eq]
  split
  · rw [Nat.add_mul]
    omega
  · omega

theorem isFinite_natural {n : Nat} (hn : n < UInt64.size) : (Numeral.natural n).isFinite = true := by
  have hvalue : (Nat.toDigits 10 n).foldl (fun n c => n * 10 + digitValue c) 0 = n := by
    have hdigits := digitsValue_eq (Nat.toDigits 10 n)
    rwa [Nat.ofDigitChars_toDigits (by decide) (by decide)] at hdigits
  have hscaled : scaled (Nat.toDigits 10 n) [] 0 = (n, 0) := by
    simp [scaled, appendDigits_of_lt (hvalue.symm ▸ hn), hvalue, appendDigits]
  have hone : roundToDouble (Nat.pow 10 (Int.toNat 0)) = 1 := by decide
  have hbound : 2 * UInt64.size < doubleBound := by decide +kernel
  simp only [Numeral.isFinite, hscaled, isFiniteProduct, hone]
  by_cases h0 : n = 0
  · simp [h0]
  · have hround := roundToDouble_le h0
    have hlt : roundToDouble n < doubleBound := by omega
    simp [hlt, largestPower]

namespace Value

theorem allRepresentable_eq (items : List Value) :
    allRepresentable items = items.all isRepresentable := by
  induction items with
  | nil => rfl
  | cons v vs ih => simp [allRepresentable, ih]

theorem membersRepresentable_eq (members : List (Text × Value)) :
    membersRepresentable members = members.all fun m => m.1.isSome && m.2.isRepresentable := by
  induction members with
  | nil => rfl
  | cons m ms ih => simp [membersRepresentable, ih]

end Value

theorem Written.isRepresentable (hv : Written v) : v.isRepresentable = true := by
  induction hv with
  | null => rfl
  | bool b => rfl
  | word n => exact isFinite_natural n.toNat_lt
  | text s => rfl
  | array items _ ih =>
      rw [Value.isRepresentable, Value.allRepresentable_eq, List.all_eq_true]
      exact ih
  | object members _ ih =>
      rw [Value.ofMembers, Value.isRepresentable, Value.membersRepresentable_eq, List.all_map,
        List.all_eq_true]
      exact fun m hm => by simpa using ih m hm

theorem written_array_iff {items : List Value} : Written (.array items) ↔ ∀ v ∈ items, Written v := by
  constructor
  · intro h
    cases h with
    | array _ h => exact h
  · exact .array items

theorem written_object_iff {members : List (Text × Value)} :
    Written (.object members) ↔ ∀ m ∈ members, m.1.isSome = true ∧ Written m.2 := by
  constructor
  · intro h
    generalize hv : Value.object members = v at h
    cases h with
    | object members' h =>
        cases hv
        intro m hm
        obtain ⟨⟨key, v⟩, hmem, rfl⟩ := List.mem_map.mp hm
        exact ⟨rfl, h (key, v) hmem⟩
    | _ => cases hv
  · intro h
    have hms : (members.filterMap fun m => m.1.map (·, m.2)).map (fun m => (some m.1, m.2)) = members := by
      rw [List.map_filterMap, List.filterMap_congr (g := some), List.filterMap_some]
      rintro ⟨_ | key, v⟩ hm
      · cases (h _ hm).1
      · rfl
    rw [← hms]
    apply Written.object
    intro m hm
    obtain ⟨m', hm', he⟩ := List.mem_filterMap.mp hm
    obtain ⟨key, -, rfl⟩ := Option.map_eq_some_iff.mp he
    exact (h m' hm').2

end Reconcile.Json
