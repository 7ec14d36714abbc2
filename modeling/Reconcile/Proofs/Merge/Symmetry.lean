import Reconcile.Proofs.Merge.Detection

namespace Reconcile

/-- Two declarations that share a key and do not agree. -/
structure Entry.Opposes (a b : Entry) : Prop where
  shared : a.Shares b
  disagree : a.content.compatible b.content = false

theorem Entry.Opposes.symm {a b : Entry} (h : a.Opposes b) : b.Opposes a := by
  refine ⟨h.shared.symm, ?_⟩
  rw [Content.compatible_comm]
  exact h.disagree

def Entry.LeafBefore (a b : Entry) : Prop :=
  (∃ l, a.content = .leaf l) ∧ ∃ s, b.content = .scope s

theorem Entry.LeafBefore.asymm {a b : Entry} (h : a.LeafBefore b) : ¬ b.LeafBefore a := by
  obtain ⟨⟨l, hl⟩, -⟩ := h
  rintro ⟨-, ⟨s, hs⟩⟩
  cases hl.symm.trans hs

theorem Entry.LeafBefore.disagree {a b : Entry} (h : a.LeafBefore b) :
    a.content.compatible b.content = false := by
  obtain ⟨⟨l, hl⟩, ⟨s, hs⟩⟩ := h
  rw [hl, hs]
  rfl

namespace Merge

variable {as bs : List Entry}

/-- A leaf of the first list has the key of a scope of the second one. -/
def Overlooked (as bs : List Entry) : Prop :=
  ∃ a ∈ as, ∃ b ∈ bs, a.LeafBefore b ∧ a.Shares b

/-- What the order of two lists of declarations has no influence on. -/
def Opposed (as bs : List Entry) : Prop := ∃ a ∈ as, ∃ b ∈ bs, a.Opposes b

theorem Opposed.symm (h : Opposed as bs) : Opposed bs as := by
  obtain ⟨a, ha, b, hb, hab⟩ := h
  exact ⟨b, hb, a, ha, hab.symm⟩

theorem mem_clashes {x : Clash} : x ∈ clashes as bs ↔ x.right ∈ bs ∧
    x.right.partner? as = some (x.key, x.left) ∧
      x.left.content.compatible x.right.content = false := by
  rw [clashes, List.mem_filterMap]
  constructor
  · rintro ⟨b, hb, h⟩
    obtain ⟨⟨key, a⟩, hp, hx⟩ := Option.bind_eq_some_iff.mp h
    split at hx
    · cases hx
    · next hne =>
        cases hx
        exact ⟨hb, hp, Bool.eq_false_iff.mpr hne⟩
  · rintro ⟨hb, hp, hne⟩
    refine ⟨x.right, hb, ?_⟩
    rw [hp, Option.bind_some, if_neg (by rw [hne]; decide)]

section

variable {a b : Entry}

theorem exists_partner?_scope {s : Scope} (hs : b.content = .scope s) (ha : a ∈ as)
    (hc : a.content.scope?.isSome = true) (hk : s.qualify b.outer ∈ a.keys) :
    ∃ a', b.partner? as = some (s.qualify b.outer, a') := by
  have hsome : (as.find? fun a => a.content.scope?.isSome &&
      a.keys.contains (s.qualify b.outer)).isSome = true := by
    rw [List.find?_isSome]
    exact ⟨a, ha, by simp [hc, hk]⟩
  obtain ⟨a', ha'⟩ := Option.isSome_iff_exists.mp hsome
  exact ⟨a', by simp only [Entry.partner?, hs, ha', Option.map_some]⟩

theorem exists_partner?_leaf {l : Leaf} (hl : b.content = .leaf l) (ha : a ∈ as) {key : String}
    (hka : key ∈ a.keys) (hkb : key ∈ b.keys) : ∃ key' a', b.partner? as = some (key', a') := by
  have hsome : (b.keys.findSome? fun key =>
      (as.find? (·.keys.contains key)).map (key, ·)).isSome = true := by
    rw [List.findSome?_isSome_iff]
    refine ⟨key, hkb, ?_⟩
    rw [Option.isSome_map, List.find?_isSome]
    exact ⟨a, ha, by simpa using hka⟩
  obtain ⟨⟨key', a'⟩, hp⟩ := Option.isSome_iff_exists.mp hsome
  exact ⟨key', a', by simpa [Entry.partner?, hl] using hp⟩

variable {A B : Forest} {TA TB : Outline}

theorem clashes_ne_nil (hA : A.Shows TA) (hB : B.Shows TB) (hdA : A.DuplicateFree)
    (hpA : A.PlainlyNamed) (hpB : B.PlainlyNamed) (h : a.Opposes b) (hne : ¬ a.LeafBefore b)
    (ha : a ∈ TA.census "") (hb : b ∈ TB.census "") :
    clashes (TA.census "") (TB.census "") ≠ [] := by
  obtain ⟨⟨key, hka, hkb⟩, hdis⟩ := h
  have hda := Outline.isDeclaration_of_census ha
  have hdb := Outline.isDeclaration_of_census hb
  suffices hx : ∃ key' a', b.partner? (TA.census "") = some (key', a') ∧
      a'.content.compatible b.content = false by
    obtain ⟨key', a', hp, hdis'⟩ := hx
    exact List.ne_nil_of_mem ((@mem_clashes _ _ ⟨key', a', b⟩).mpr ⟨hb, hp, hdis'⟩)
  cases hcb : b.content with
  | tree | visibilityGroup | group => simp [hcb, Content.isDeclaration] at hdb
  | scope s =>
      cases hca : a.content with
      | tree | visibilityGroup | group => simp [hca, Content.isDeclaration] at hda
      | leaf l => exact absurd ⟨⟨l, hca⟩, ⟨s, hcb⟩⟩ hne
      | scope t =>
          have hkey : key = s.qualify b.outer := by
            simpa [Entry.keys, hcb, Content.keys] using hkb
          subst hkey
          obtain ⟨a', hp⟩ := exists_partner?_scope hcb ha (by simp [hca, Content.scope?]) hka
          obtain ⟨ha', hka', -⟩ := mem_of_partner? hp
          cases hA.eq_of_mem_keys hdA ha ha' hka hka'
          exact ⟨_, a, hp, hcb ▸ hdis⟩
  | leaf l =>
      obtain ⟨key', a', hp⟩ := exists_partner?_leaf hcb ha hka hkb
      obtain ⟨ha', hka', hkb'⟩ := mem_of_partner? hp
      refine ⟨key', a', hp, ?_⟩
      by_contra hagree
      rw [Bool.not_eq_false, ← hcb] at hagree
      -- A partner that agrees has all keys of `b`, so it is `a`.
      have hkeys : a'.keys = b.keys :=
        Content.keys_eq_of_compatible hagree (hA.isPlain_outer hpA ha') (hB.isPlain_outer hpB hb)
          hka' hkb'
      cases hA.eq_of_mem_keys hdA ha ha' hka (hkeys ▸ hkb)
      rw [hdis] at hagree
      cases hagree

/-- Two trees are opposed if they clash, or if a leaf of the first one has the key of a scope of the
second one. -/
theorem clashes_or_overlooked (hA : A.Shows TA) (hB : B.Shows TB) (hdA : A.DuplicateFree)
    (hpA : A.PlainlyNamed) (hpB : B.PlainlyNamed) :
    clashes (TA.census "") (TB.census "") ≠ [] ∨ Overlooked (TA.census "") (TB.census "") ↔
      Opposed (TA.census "") (TB.census "") := by
  constructor
  · rintro (hx | ⟨a, ha, b, hb, hab, hshared⟩)
    · obtain ⟨x, hx⟩ := List.exists_mem_of_ne_nil _ hx
      obtain ⟨hb, hp, hdis⟩ := mem_clashes.mp hx
      obtain ⟨ha, hka, hkb⟩ := mem_of_partner? hp
      exact ⟨x.left, ha, x.right, hb, ⟨x.key, hka, hkb⟩, hdis⟩
    · exact ⟨a, ha, b, hb, hshared, hab.disagree⟩
  · rintro ⟨a, ha, b, hb, hab⟩
    by_cases hleaf : a.LeafBefore b
    · exact Or.inr ⟨a, ha, b, hb, hleaf, hab.shared⟩
    · left
      exact clashes_ne_nil hA hB hdA hpA hpB hab hleaf ha hb

theorem clashes_of_overlooked (hA : A.Shows TA) (hB : B.Shows TB) (hdA : A.DuplicateFree)
    (hpA : A.PlainlyNamed) (hpB : B.PlainlyNamed) (h : Overlooked (TB.census "") (TA.census "")) :
    clashes (TA.census "") (TB.census "") ≠ [] := by
  obtain ⟨b, hb, a, ha, hba, hshared⟩ := h
  have hopp : a.Opposes b := Entry.Opposes.symm ⟨hshared, hba.disagree⟩
  exact clashes_ne_nil hA hB hdA hpA hpB hopp hba.asymm ha hb

end

theorem conflicts_iff {out : Output} {labels : Labels} {copy : Handle → Handle}
    (h : List.Forall₂ (out.Reports labels copy) out.conflicts (clashes as bs)) :
    out.conflicts ≠ [] ↔ clashes as bs ≠ [] := by
  rw [← List.length_pos_iff, ← List.length_pos_iff, h.length_eq]

/-- Two trees are found to be in conflict in either order, if leaves that have the key of a scope of
the other tree are counted for the order that does not compare them. The other order does. -/
theorem detection_symmetric (labels : Labels) (A B : Forest) (hwA : A.WellFormed)
    (hwB : B.WellFormed) (hcA : A.ConflictFree) (hcB : B.ConflictFree) (hdA : A.DuplicateFree)
    (hdB : B.DuplicateFree) (hpA : A.PlainlyNamed) (hpB : B.PlainlyNamed) :
    ∃ TA TB out out', A.outline Forest.root = .ok TA ∧ B.outline Forest.root = .ok TB ∧
      mergeAll ⟨labels, .both⟩ [A, B] = .ok out ∧ mergeAll ⟨labels, .both⟩ [B, A] = .ok out' ∧
      (out.conflicts ≠ [] ∨ Overlooked (TA.census "") (TB.census "") ↔
        out'.conflicts ≠ [] ∨ Overlooked (TB.census "") (TA.census "")) ∧
      (Overlooked (TA.census "") (TB.census "") → out'.conflicts ≠ []) ∧
      (Overlooked (TB.census "") (TA.census "") → out.conflicts ≠ []) := by
  obtain ⟨TA, hA⟩ := hwA.exists_shows
  obtain ⟨TB, hB⟩ := hwB.exists_shows
  obtain ⟨out, -, hout, -, -, hall⟩ := exists_detection labels hA hB (hA.conflictFree hcA)
    (hB.conflictFree hcB) hdA hdB hpA hpB
  obtain ⟨out', -, hout', -, -, hall'⟩ := exists_detection labels hB hA (hB.conflictFree hcB)
    (hA.conflictFree hcA) hdB hdA hpB hpA
  refine ⟨TA, TB, out, out', hA.outline, hB.outline, hout, hout', ?_⟩
  rw [conflicts_iff hall, conflicts_iff hall', clashes_or_overlooked hA hB hdA hpA hpB,
    clashes_or_overlooked hB hA hdB hpB hpA]
  exact ⟨⟨.symm, .symm⟩, clashes_of_overlooked hB hA hdB hpB hpA,
    clashes_of_overlooked hA hB hdA hpA hpB⟩

theorem detection_symmetric_sample : ∃ TA TB out out',
    (Forest.ofConstant "A" "1").outline Forest.root = .ok TA ∧
      sampleClass.outline Forest.root = .ok TB ∧
      mergeAll {} [.ofConstant "A" "1", sampleClass] = .ok out ∧
      mergeAll {} [sampleClass, .ofConstant "A" "1"] = .ok out' ∧
      (out.conflicts ≠ [] ∨ Overlooked (TA.census "") (TB.census "") ↔
        out'.conflicts ≠ [] ∨ Overlooked (TB.census "") (TA.census "")) ∧
      (Overlooked (TA.census "") (TB.census "") → out'.conflicts ≠ []) ∧
      (Overlooked (TB.census "") (TA.census "") → out.conflicts ≠ []) :=
  detection_symmetric ⟨"left", "right"⟩ (.ofConstant "A" "1") sampleClass (by decide) (by decide)
    (by decide) (by decide) (by decide) (by decide) (by decide) (by decide)

def sampleScope : Forest := .ofItems [.scope (.moduleNamed "A") {} []]

def readers : Forest :=
  .ofItems [.scope (.moduleNamed "A") {}
    [.leaf (.attribute { kind := .reader, names := ["b#x", "x"] }) {}]]

def readersElsewhere : Forest :=
  .ofItems [.scope (.moduleNamed "A") {} [.leaf (.method { name := "x" }) {}],
    .scope (.moduleNamed "A#b") {} [.leaf (.attribute { kind := .reader, names := ["b#x", "x"] }) {}]]

/-- A constant is overlooked by a module of its name that comes later. Separators in the names of
scopes make keys ambiguous, and readers can then be united with others of their names elsewhere. -/
theorem detection_depends_on_order :
    ((Forest.ofConstant "A" "1").WellFormed ∧ (Forest.ofConstant "A" "1").ConflictFree ∧
      (Forest.ofConstant "A" "1").DuplicateFree ∧ sampleScope.WellFormed ∧
      sampleScope.ConflictFree ∧ sampleScope.DuplicateFree ∧
      (mergeAll {} [.ofConstant "A" "1", sampleScope]).map (·.conflicts) = .ok [] ∧
      (mergeAll {} [sampleScope, .ofConstant "A" "1"]).map (·.conflicts) =
        .ok [⟨"::A", 1, 2, ⟨"left", "right"⟩⟩]) ∧
    readers.WellFormed ∧ readers.ConflictFree ∧ readers.DuplicateFree ∧
      readersElsewhere.WellFormed ∧ readersElsewhere.ConflictFree ∧ readersElsewhere.DuplicateFree ∧
      (mergeAll {} [readers, readersElsewhere]).map (·.conflicts) =
        .ok [⟨"::A#x", 2, 3, ⟨"left", "right"⟩⟩] ∧
      (mergeAll {} [readersElsewhere, readers]).map (·.conflicts) = .ok [] := by
  refine ⟨⟨?_, ?_, ?_, ?_, ?_, ?_, rfl, rfl⟩, ?_, ?_, ?_, ?_, ?_, ?_, rfl, rfl⟩ <;> decide

end Merge

end Reconcile
