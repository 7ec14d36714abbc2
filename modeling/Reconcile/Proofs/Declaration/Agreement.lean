import Reconcile.Proofs.Declaration.Growth
import Reconcile.Proofs.Texts

namespace Reconcile

/-- The name has none of the characters that separate a scope from a slot in it. -/
def isPlain (name : String) : Bool := name.toList.all fun c => c ≠ '#' && c ≠ '.'

def Scope.isPlain (s : Scope) : Bool := s.name?.all Reconcile.isPlain

section Union

variable {α : Type} [DecidableEq α] {xs ys : List α}

theorem union_append (xs ys zs : List α) : union xs (ys ++ zs) = union (union xs ys) zs := by
  induction ys generalizing xs with
  | nil => rfl
  | cons y ys ih =>
      rw [List.cons_append, union, union]
      exact ih _

theorem union_eq_left (h : ys ⊆ xs) : union xs ys = xs := by
  induction ys with
  | nil => rfl
  | cons y ys ih =>
      rw [List.cons_subset] at h
      rw [union, if_pos h.1]
      exact ih h.2

end Union

theorem Notes.addComments_nil (n : Notes) : n.addComments [] = n := rfl

theorem Notes.addComments_append (n : Notes) (xs ys : List String) :
    n.addComments (xs ++ ys) = (n.addComments xs).addComments ys := by
  rw [addComments, addComments, addComments, union_append]

theorem Notes.addComments_eq_self {n : Notes} {comments : List String}
    (h : comments ⊆ n.comments) : n.addComments comments = n := by
  rw [addComments, union_eq_left h]

theorem agreeingSignatures_comm (xs ys : List Signature) :
    agreeingSignatures xs ys = agreeingSignatures ys xs := by
  rw [agreeingSignatures, agreeingSignatures, Bool.or_comm xs.isEmpty, decide_eq_decide.mpr eq_comm]

theorem agreeingSignatures_self (xs : List Signature) : agreeingSignatures xs xs = true := by
  simp [agreeingSignatures]

theorem sameShapes_comm (ps qs : List Param) : sameShapes ps qs = sameShapes qs ps :=
  Bool.eq_iff_iff.mpr ⟨sameShapes_symm, sameShapes_symm⟩

theorem Method.compatible_comm (m n : Method) : m.compatible n = n.compatible m := by
  rw [compatible, compatible, sameShapes_comm, agreeingSignatures_comm,
    decide_eq_decide.mpr (eq_comm (a := m.name)), decide_eq_decide.mpr (eq_comm (a := m.isSingleton))]

theorem Attribute.compatible_comm (a b : Attribute) : a.compatible b = b.compatible a := by
  rw [compatible, compatible, agreeingSignatures_comm, decide_eq_decide.mpr (eq_comm (a := a.kind)),
    decide_eq_decide.mpr (eq_comm (a := a.names))]

namespace Leaf

theorem compatible_comm (l k : Leaf) : l.compatible k = k.compatible l := by
  cases l <;> cases k <;>
    simp only [compatible, Method.compatible_comm, Attribute.compatible_comm] <;>
    first | rfl | exact decide_eq_decide.mpr eq_comm

theorem compatible_self {l : Leaf} {outer : String} (h : l.keys outer ≠ []) :
    l.compatible l = true := by
  unfold compatible
  split
  · simp_all [Method.compatible, sameShapes_refl, agreeingSignatures_self]
  · simp_all [Attribute.compatible, agreeingSignatures_self]
  · rfl
  · exact absurd rfl h
  · exact decide_eq_true rfl

theorem absorb_self (l : Leaf) : l.absorb l = l := by
  cases l <;> simp [absorb, union_eq_left (List.Subset.refl _)]

end Leaf

theorem Content.compatible_comm (c d : Content) : c.compatible d = d.compatible c := by
  cases c <;> cases d <;> simp only [compatible, Leaf.compatible_comm]
  exact decide_eq_decide.mpr eq_comm

section Plain

variable {a b : String}

theorem not_mem_of_isPlain (h : isPlain a = true) : '#' ∉ a.toList ∧ '.' ∉ a.toList := by
  simp only [isPlain, List.all_eq_true, Bool.and_eq_true, decide_eq_true_eq, ne_eq] at h
  exact ⟨fun hm => (h _ hm).1 rfl, fun hm => (h _ hm).2 rfl⟩

theorem isPlain_append (h : isPlain a = true) (h' : isPlain b = true) : isPlain (a ++ b) = true := by
  simp only [isPlain, String.toList_append, List.all_append, Bool.and_eq_true] at h h' ⊢
  exact ⟨h, h'⟩

theorem Scope.isPlain_qualify {s : Scope} (hs : s.isPlain = true) (ha : Reconcile.isPlain a = true) :
    Reconcile.isPlain (s.qualify a) = true := by
  cases s with
  | singleton => exact isPlain_append ha (by decide)
  | moduleNamed name | classNamed name =>
      have hname : Reconcile.isPlain name = true := hs
      rw [qualify]
      split
      · exact hname
      · exact isPlain_append (isPlain_append ha (by decide)) hname

theorem exists_slot_attribute {x : Attribute} {key : String} (h : key ∈ x.keys a) :
    ∃ u, key.toList = a.toList ++ '#' :: u := by
  obtain ⟨name, -, h⟩ := List.mem_flatMap.mp h
  have hslot : key = a ++ "#" ++ name ∨ key = a ++ "#" ++ name ++ "=" := by
    split at h
    · exact Or.inl (List.mem_singleton.mp h)
    · exact Or.inr (List.mem_singleton.mp h)
    · simpa using h
  rcases hslot with rfl | rfl
  · exact ⟨name.toList, by simp⟩
  · exact ⟨name.toList ++ ['='], by simp⟩

theorem exists_slot_field {f : Field} {key : String} (h : key ∈ Leaf.keys a (.field f)) :
    ∃ u, key.toList = a.toList ++ '#' :: u := by
  have hslot : key = a ++ "#" ++ f.name ∨ key = a ++ "#" ++ f.name ++ "=" := by
    rw [Leaf.keys] at h
    split at h <;> simp_all
  rcases hslot with rfl | rfl
  · exact ⟨f.name.toList, by simp⟩
  · exact ⟨f.name.toList ++ ['='], by simp⟩

theorem exists_slot_mixin {m : Mixin} {key : String} (h : key ∈ Leaf.keys a (.mixin m)) :
    ∃ u, key.toList = a.toList ++ '.' :: u := by
  obtain ⟨name, -, rfl⟩ := List.mem_map.mp h
  exact ⟨m.kind.keyword.toList ++ '(' :: (name.toList ++ [')']), by simp⟩

variable {key : String}

theorem keys_eq_of_singleton {xs ys : List String} {x y : String} (hx : xs = [x]) (hy : ys = [y])
    (h : key ∈ xs) (h' : key ∈ ys) : xs = ys := by
  subst hx hy
  rw [← List.mem_singleton.mp h, ← List.mem_singleton.mp h']

theorem Leaf.keys_eq_of_mem {l : Leaf} (ha : isPlain a = true) (hb : isPlain b = true)
    (h : key ∈ l.keys a) (h' : key ∈ l.keys b) : l.keys a = l.keys b := by
  have hna := not_mem_of_isPlain ha
  have hnb := not_mem_of_isPlain hb
  have hslot {sep : Char} (ha : sep ∉ a.toList) (hb : sep ∉ b.toList)
      (hu : ∃ u, key.toList = a.toList ++ sep :: u) (hv : ∃ v, key.toList = b.toList ++ sep :: v) :
      l.keys a = l.keys b := by
    obtain ⟨u, hu⟩ := hu
    obtain ⟨v, hv⟩ := hv
    rw [String.toList_inj.mp (cut_first_unique ha hb (hu.symm.trans hv)).1]
  cases l with
  | constant | method | enumeration | helper | typeMember => exact keys_eq_of_singleton rfl rfl h h'
  | marker => cases h
  | mixin => exact hslot hna.2 hnb.2 (exists_slot_mixin h) (exists_slot_mixin h')
  | field => exact hslot hna.1 hnb.1 (exists_slot_field h) (exists_slot_field h')
  | _ x => exact hslot hna.1 hnb.1 (exists_slot_attribute h) (exists_slot_attribute h')

theorem Leaf.keys_of_compatible {l k : Leaf} (hc : l.compatible k = true) (outer : String) :
    l.keys outer = k.keys outer := by
  rw [← (l.within_absorb k).keys_eq outer, (Within.of_compatible hc).keys_eq outer]

theorem Content.keys_eq_of_compatible {c d : Content} (hc : c.compatible d = true)
    (ha : isPlain a = true) (hb : isPlain b = true) (h : key ∈ c.keys a) (h' : key ∈ d.keys b) :
    c.keys a = d.keys b := by
  cases c with
  | scope s =>
      cases d with
      | scope t => exact keys_eq_of_singleton rfl rfl h h'
      | tree | visibilityGroup | group | leaf => cases hc
  | leaf l =>
      cases d with
      | leaf k =>
          rw [keys, l.keys_of_compatible hc] at h ⊢
          exact Leaf.keys_eq_of_mem ha hb h h'
      | tree | visibilityGroup | group | scope => cases hc
  | tree | visibilityGroup | group => cases hc

end Plain

end Reconcile
