import Reconcile.Forest.Ancestry
import Reconcile.Proofs.Declaration.Slots
import Reconcile.Proofs.Forest.Lookup
import Reconcile.Proofs.Sequencing

namespace Reconcile

namespace Kind

def isOrdinary : Kind → Bool
  | plain (.scope s) => s.isOrdinary
  | plain (.leaf l) => l.isOrdinary
  | _ => true

def slots : Kind → List Slot
  | plain (.scope s) => [.constant s.label]
  | plain (.leaf l) => l.slots
  | _ => []

variable {k : Kind}

theorem isOrdinary_scope {s : Scope} (hs : k.scope? = some s) (h : k.isOrdinary = true) :
    s.isOrdinary = true := by
  cases k with
  | conflict => cases hs
  | plain c =>
      cases c with
      | scope => cases hs; exact h
      | tree | visibilityGroup | group | leaf => cases hs

theorem isOrdinary_slots (h : k.isOrdinary = true) : ∀ s ∈ k.slots, s.isOrdinary = true := by
  unfold slots
  split
  · simpa [Slot.isOrdinary] using Scope.isLabel_label h
  · exact Leaf.isOrdinary_slots h
  · simp

theorem keys_eq_map_slots (h : k.isOrdinary = true) (chain : List String) :
    k.keys (chainName chain) = k.slots.map (Slot.key chain) := by
  cases k with
  | conflict => rfl
  | plain c =>
      cases c with
      | scope s =>
          simp [keys, Content.keys, slots, Scope.qualify_eq h, Slot.key, Slot.text, String.append_assoc]
      | leaf l => exact l.keys_eq_map_slots chain
      | tree | visibilityGroup | group => rfl

end Kind

namespace Forest

/-- The names of the scopes around a node, the nearest first. -/
def scopeChain (f : Forest) (h : Handle) : Except Fault (List String) :=
  return (← f.enclosingScopes h).map fun s => s.2.label

def IsOrdinary (f : Forest) : Prop := ∀ h < f.size, ∀ n ∈ f.look h, n.kind.isOrdinary = true

instance (f : Forest) : Decidable f.IsOrdinary :=
  inferInstanceAs (Decidable (∀ h < f.size, ∀ n ∈ f.look h, n.kind.isOrdinary = true))

variable {f g : Forest} {h k : Handle} {kind : Kind} {key : String} {keys keys' : List String}

theorem isOrdinary_of_kind (hf : f.IsOrdinary) (hk : f.kind h = .ok kind) : kind.isOrdinary = true := by
  cases hn : f.look h with
  | none =>
      have hnone : f.nodes[h]? = none := hn
      simp [Forest.kind, get, hnone, bind, Except.bind] at hk
  | some n =>
      cases (kind_of_look hn).symm.trans hk
      exact hf h (look_lt hn) n hn

theorem isOrdinary_of_kinds (hf : f.IsOrdinary) {hs : List Handle} {ks : List (Handle × Kind)}
    (hks : f.kinds hs = .ok ks) : ∀ x ∈ ks, x.2.isOrdinary = true := by
  have hall := forall₂_of_mapM hks
  clear hks
  induction hall with
  | nil => simp
  | cons hx _ ih =>
      obtain ⟨kind, hk, he⟩ := exists_of_bind_eq_ok hx
      cases he
      exact List.forall_mem_cons.mpr ⟨isOrdinary_of_kind hf hk, ih⟩

theorem isOrdinary_of_enclosing (hf : f.IsOrdinary) {scopes : List (Handle × Scope)}
    (hs : f.enclosingScopes h = .ok scopes) : ∀ s ∈ scopes, s.2.isOrdinary = true := by
  obtain ⟨up, -, hs⟩ := exists_of_bind_eq_ok hs
  obtain ⟨ks, hks, hs⟩ := exists_of_bind_eq_ok hs
  cases hs
  intro s hs
  obtain ⟨x, hx, he⟩ := List.mem_filterMap.mp hs
  obtain ⟨scope, hscope, rfl⟩ := Option.map_eq_some_iff.mp he
  exact Kind.isOrdinary_scope hscope (isOrdinary_of_kinds hf hks x hx)

theorem foldr_qualify {scopes : List (Handle × Scope)} (hs : ∀ s ∈ scopes, s.2.isOrdinary = true) :
    scopes.foldr (fun s outer => s.2.qualify outer) "" = chainName (scopes.map fun s => s.2.label) := by
  induction scopes with
  | nil => rfl
  | cons s scopes ih =>
      rw [List.forall_mem_cons] at hs
      rw [List.foldr_cons, ih hs.2, Scope.qualify_eq hs.1]
      rfl

theorem exists_slots_of_keys (hf : f.IsOrdinary) (hks : f.keys h = .ok keys) :
    ∃ kind chain, f.kind h = .ok kind ∧ f.scopeChain h = .ok chain ∧
      keys = kind.slots.map (Slot.key chain) ∧ (∀ label ∈ chain, isLabel label = true) ∧
      ∀ s ∈ kind.slots, s.isOrdinary = true := by
  obtain ⟨kind, hkind, hks⟩ := exists_of_bind_eq_ok hks
  obtain ⟨outer, houter, hks⟩ := exists_of_bind_eq_ok hks
  obtain ⟨scopes, hscopes, houter⟩ := exists_of_bind_eq_ok houter
  cases hks
  cases houter
  have hord := isOrdinary_of_enclosing hf hscopes
  have hkord := isOrdinary_of_kind hf hkind
  refine ⟨kind, scopes.map fun s => s.2.label, hkind, ?_, ?_, ?_, Kind.isOrdinary_slots hkord⟩
  · rw [scopeChain, hscopes]
    rfl
  · rw [foldr_qualify hord, Kind.keys_eq_map_slots hkord]
  · intro label hl
    obtain ⟨s, hs, rfl⟩ := List.mem_map.mp hl
    exact Scope.isLabel_label (hord s hs)

/-- If two nodes of trees with ordinary names share a key, they have scopes of the same names around
them, and the key stands for one slot only, which they both take. -/
theorem shared_key_same_slot (hf : f.IsOrdinary) (hg : g.IsOrdinary) (hks : f.keys h = .ok keys)
    (hks' : g.keys k = .ok keys') (hmem : key ∈ keys) (hmem' : key ∈ keys') :
    ∃ kind kind' chain slot, f.kind h = .ok kind ∧ g.kind k = .ok kind' ∧
      f.scopeChain h = .ok chain ∧ g.scopeChain k = .ok chain ∧
      keys = kind.slots.map (Slot.key chain) ∧ keys' = kind'.slots.map (Slot.key chain) ∧
      slot ∈ kind.slots ∧ slot ∈ kind'.slots ∧ slot.key chain = key ∧
      ∀ s ∈ kind.slots ++ kind'.slots, s.key chain = key → s = slot := by
  obtain ⟨kind, chain, hkind, hchain, rfl, hlabel, hord⟩ := exists_slots_of_keys hf hks
  obtain ⟨kind', chain', hkind', hchain', rfl, hlabel', hord'⟩ := exists_slots_of_keys hg hks'
  obtain ⟨s, hs, he⟩ := List.mem_map.mp hmem
  obtain ⟨t, ht, he'⟩ := List.mem_map.mp hmem'
  obtain ⟨rfl, rfl⟩ := Slot.key_inj hlabel hlabel' (hord s hs) (hord' t ht) (he.trans he'.symm)
  refine ⟨kind, kind', chain, s, hkind, hkind', hchain, hchain', rfl, rfl, hs, ht, he, ?_⟩
  intro r hr her
  have hordr : r.isOrdinary = true := (List.mem_append.mp hr).elim (hord r) (hord' r)
  exact (Slot.key_inj hlabel hlabel hordr (hord s hs) (her.trans he.symm)).2

def scopeWith (s : Scope) (l : Leaf) : Forest :=
  ⟨#[{ kind := .plain .tree, children := [1] },
    { kind := .plain (.scope s), parent := some root, children := [2] },
    { kind := .plain (.leaf l), parent := some 1 }]⟩

def sizedClass : Forest :=
  scopeWith (.classNamed "A" (some "B")) (.attribute { kind := .accessor, names := ["size"] })

def sizedModule : Forest := scopeWith (.moduleNamed "A") (.method { name := "size=" })

theorem shared_key_same_slot_sized :
    sizedClass.IsOrdinary ∧ sizedModule.IsOrdinary ∧ sizedClass.keys 2 = .ok ["::A#size", "::A#size="] ∧
      sizedModule.keys 2 = .ok ["::A#size="] ∧ ∃ (chain : List String) (slot : Slot),
        sizedClass.scopeChain 2 = .ok chain ∧ sizedModule.scopeChain 2 = .ok chain ∧
          slot.key chain = "::A#size=" := by
  have hf : sizedClass.IsOrdinary := by decide
  have hg : sizedModule.IsOrdinary := by decide
  have hks : sizedClass.keys 2 = .ok ["::A#size", "::A#size="] := rfl
  have hks' : sizedModule.keys 2 = .ok ["::A#size="] := rfl
  obtain ⟨-, -, chain, slot, -, -, hchain, hchain', -, -, -, -, he, -⟩ :=
    shared_key_same_slot hf hg hks hks' (by simp) (List.mem_singleton_self _)
  exact ⟨hf, hg, hks, hks', chain, slot, hchain, hchain', he⟩

end Forest

end Reconcile
