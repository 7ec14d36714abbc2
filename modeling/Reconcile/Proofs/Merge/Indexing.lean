import Reconcile.Proofs.Merge.Registry

namespace Reconcile

/-- A node that counts for identity, with the scopes around it, the outermost first. -/
structure Placement where
  handle : Handle
  around : List Scope
  content : Content
  deriving DecidableEq

namespace Placement

def outer (p : Placement) : String := p.around.foldl Scope.qualify ""

def keys (p : Placement) : List String := p.content.keys p.outer

end Placement

namespace Outline

mutual

/-- The nodes that are reached through children and left sides, in document order. -/
def placements (around : List Scope) : Outline → List Placement
  | node h content _ children =>
      ⟨h, around, content⟩ :: placementsOfAll (around ++ content.scope?.toList) children
  | conflict _ _ _ _ left _ => left.placements around

def placementsOfAll (around : List Scope) : List Outline → List Placement
  | [] => []
  | o :: os => o.placements around ++ placementsOfAll around os

end

/-- What an index has under a key: every node as often as the key is one of its own. -/
def listed (o : Outline) (key : String) : List Handle :=
  (o.placements []).flatMap fun p => List.replicate (p.keys.count key) p.handle

variable {around : List Scope} {o : Outline}

theorem placementsOfAll_eq (os : List Outline) :
    placementsOfAll around os = os.flatMap (placements around) := by
  induction os with
  | nil => rfl
  | cons o os ih => rw [placementsOfAll, ih, List.flatMap_cons]

@[simp] theorem placements_node (h : Handle) (c : Content) (n : Notes) (cs : List Outline) :
    (node h c n cs).placements around =
      ⟨h, around, c⟩ :: cs.flatMap (placements (around ++ c.scope?.toList)) := by
  rw [placements, placementsOfAll_eq]

theorem foldl_qualify_scope (c : Content) :
    (around ++ c.scope?.toList).foldl Scope.qualify "" = c.qualify (around.foldl Scope.qualify "") := by
  rw [List.foldl_append, Content.qualify]
  cases c.scope? <;> rfl

theorem registrations_census (o : Outline) :
    (o.census (around.foldl Scope.qualify "")).flatMap Entry.registrations =
      (o.placements around).flatMap fun p => p.keys.map (·, p.handle) := by
  induction o generalizing around with
  | node h c n cs ih =>
      rw [census_node, placements_node, List.flatMap_append, registrations_ownEntry,
        List.flatMap_cons, List.flatMap_assoc, List.flatMap_assoc, ← foldl_qualify_scope]
      exact congrArg _ (List.flatMap_congr fun x hx => ih x hx)
  | conflict h form labels n l r ihl _ => exact ihl

end Outline

namespace Index

theorem get_reverse (regs : List (String × Handle)) (key : String) :
    (Index.mk regs.reverse).get key =
      regs.filterMap fun entry => if entry.1 = key then some entry.2 else none := by
  rw [get, recent, List.filterMap_reverse, List.reverse_reverse]

theorem filterMap_registrations (keys : List String) (h : Handle) (key : String) :
    ((keys.map (·, h)).filterMap fun entry => if entry.1 = key then some entry.2 else none) =
      List.replicate (keys.count key) h := by
  induction keys with
  | nil => rfl
  | cons k keys ih =>
      rw [List.map_cons, List.filterMap_cons, List.count_cons, ih]
      by_cases hk : k = key
      · simp [hk, List.replicate_succ]
      · simp [hk]

theorem contains_iff {i : Index} {key : String} :
    i.contains key = true ↔ ∃ entry ∈ i.newest, entry.1 = key := by
  simp [contains]

/-- The index of a well-formed tree is what is read off on the way down: under every key it has the
nodes that are reached through children and left sides, in document order and as often as the key is
one of theirs under the name that the scopes around them make. It has no other keys. -/
theorem build_from_above {f : Forest} (hf : f.WellFormed) :
    ∃ o i, f.outline Forest.root = .ok o ∧ build f = .ok i ∧ ∀ key, i.get key = o.listed key ∧
      (i.contains key = true ↔ ∃ p ∈ o.placements [], key ∈ p.keys) := by
  obtain ⟨o, ho⟩ := hf.exists_shows
  have hbuild : build f =
      .ok ⟨((o.placements []).flatMap fun p => p.keys.map (·, p.handle)).reverse⟩ := by
    rw [ho.build_eq, ← Outline.registrations_census]
    rfl
  refine ⟨o, _, ho.outline, hbuild, fun key => ⟨?_, ?_⟩⟩
  · rw [get_reverse, List.filterMap_flatMap, Outline.listed]
    exact List.flatMap_congr fun p _ => filterMap_registrations p.keys p.handle key
  · rw [contains_iff]
    simp only [List.mem_reverse, List.mem_flatMap, List.mem_map]
    constructor
    · rintro ⟨_, ⟨p, hp, k, hk, rfl⟩, rfl⟩
      exact ⟨p, hp, hk⟩
    · rintro ⟨p, hp, hk⟩
      exact ⟨_, ⟨p, hp, key, hk, rfl⟩, rfl⟩

def nestedNames : Forest :=
  ⟨#[{ kind := .plain .tree, children := [1] },
    { kind := .plain (.scope (.moduleNamed "A")), parent := some 0, children := [2] },
    { kind := .plain (.scope .singleton), parent := some 1, children := [3, 8] },
    { kind := .conflict .declarations ⟨"left", "right"⟩ 4 6, parent := some 2 },
    { kind := .plain .tree, parent := some 3, children := [5] },
    { kind := .plain (.leaf (.attribute { kind := .reader, names := ["x", "x"] })), parent := some 4 },
    { kind := .plain .tree, parent := some 3, children := [7] },
    { kind := .plain (.leaf (.helper "x")), parent := some 6 },
    { kind := .plain (.scope (.classNamed "::B" none)), parent := some 2, children := [9] },
    { kind := .plain (.leaf (.method { name := "m" })), parent := some 8 }]⟩

theorem build_from_above_nested : nestedNames.WellFormed ∧ ∃ i, build nestedNames = .ok i ∧
    i.get "::A::<self>#x" = [5, 5] ∧ i.get "::B#m" = [9] ∧ i.contains "::A::<self>.x!" = false := by
  have hf : nestedNames.WellFormed := by decide
  obtain ⟨o, i, ho, hi, h⟩ := build_from_above hf
  cases ho
  refine ⟨hf, i, hi, (h _).1.trans (by decide), (h _).1.trans (by decide), ?_⟩
  rw [Bool.eq_false_iff, Ne, (h _).2]
  decide

end Index

end Reconcile
