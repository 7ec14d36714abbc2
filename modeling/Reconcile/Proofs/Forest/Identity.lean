import Reconcile.Document.Build
import Reconcile.Proofs.Declaration.Agreement
import Reconcile.Proofs.Forest.Contest
import Reconcile.Proofs.Forest.WellFormed

namespace Reconcile

/-- Two declarations without a key in common. -/
def Entry.Apart (e e' : Entry) : Prop := e.keys.Disjoint e'.keys

def Entry.Shares (e e' : Entry) : Prop := ∃ key ∈ e.keys, key ∈ e'.keys

instance (e e' : Entry) : Decidable (e.Shares e') :=
  inferInstanceAs (Decidable (∃ key ∈ e.keys, key ∈ e'.keys))

theorem Entry.Shares.symm {e e' : Entry} (h : e.Shares e') : e'.Shares e := by
  obtain ⟨key, he, he'⟩ := h
  exact ⟨key, he', he⟩

namespace Outline

variable {o : Outline} {outer : String}

theorem handle_mem_of_census {e : Entry} (he : e ∈ o.census outer) : e.handle ∈ o.handles :=
  (sublist_handles_census outer o).subset (List.mem_map_of_mem he)

theorem nodup_census (outer : String) (hd : o.handles.Nodup) : (o.census outer).Nodup :=
  List.Nodup.of_map Entry.handle (hd.sublist (sublist_handles_census outer o))

theorem isDeclaration_of_census {e : Entry} (he : e ∈ o.census outer) :
    e.content.isDeclaration = true := by
  obtain ⟨_, _, _, _, hd⟩ := exists_path_of_mem_census he
  exact hd

theorem leaf_or_scope_of_census {e : Entry} (he : e ∈ o.census outer) :
    (∃ l, e.content = .leaf l) ∨ ∃ s, e.content = .scope s := by
  have hd := isDeclaration_of_census he
  cases hc : e.content with
  | leaf l => exact Or.inl ⟨l, rfl⟩
  | scope s => exact Or.inr ⟨s, rfl⟩
  | tree | visibilityGroup | group =>
      rw [hc] at hd
      cases hd

theorem isPlain_outer (hs : ∀ e ∈ o.census outer, ∀ s, e.content = .scope s → s.isPlain = true)
    (ho : isPlain outer = true) : ∀ e ∈ o.census outer, isPlain e.outer = true := by
  induction o generalizing outer with
  | node h c n cs ih =>
      simp only [census_node, List.mem_append, List.mem_flatMap] at hs ⊢
      rintro e (he | ⟨x, hx, he⟩)
      · unfold ownEntry at he
        split at he
        · cases List.mem_singleton.mp he
          exact ho
        · cases he
      · refine ih x hx (fun e he => hs e (Or.inr ⟨x, hx, he⟩)) ?_ e he
        cases c with
        | scope s =>
            have hown : ⟨h, outer, .scope s, n⟩ ∈ ownEntry outer h (.scope s) n := by
              simp [ownEntry, Content.isDeclaration]
            exact Scope.isPlain_qualify (hs _ (Or.inl hown) s rfl) ho
        | tree | visibilityGroup | group | leaf => exact ho
  | conflict h form labels n l r ihl _ => exact ihl hs ho

end Outline

def Kind.isLeaf : Kind → Bool
  | .plain (.leaf _) => true
  | _ => false

theorem Kind.mem_scope?_iff {k : Kind} {s : Scope} : s ∈ k.scope? ↔ k = .plain (.scope s) := by
  cases k with
  | plain c => cases c <;> simp [scope?, Content.scope?]
  | conflict => simp [scope?]

namespace Forest

/-- No identity key belongs to two of the nodes that can be reached from the root. -/
def DuplicateFree (f : Forest) : Prop :=
  ∃ o, f.outline root = .ok o ∧ ∀ h ∈ o.handles, ∀ h' ∈ o.handles, ∀ keys keys',
    f.keys h = .ok keys → f.keys h' = .ok keys' → ∀ key ∈ keys, key ∈ keys' → h = h'

/-- No scope that can be reached from the root has a separator in its name. -/
def PlainlyNamed (f : Forest) : Prop :=
  ∃ o, f.outline root = .ok o ∧ ∀ h ∈ o.handles, ∀ s, f.kind h = .ok (.plain (.scope s)) →
    s.isPlain = true

/-- The nodes of two trees, or of one, have no identity key in common. -/
def NodesApart (f g : Forest) (h k : Handle) : Prop :=
  ∀ keys keys', f.keys h = .ok keys → g.keys k = .ok keys' → keys.Disjoint keys'

/-- No leaf has an identity key in common with a scope. -/
def SortsApart (f : Forest) : Prop :=
  ∃ o, f.outline root = .ok o ∧ ∀ h ∈ o.handles, ∀ k ∈ o.handles, ∀ a b, f.kind h = .ok a →
    f.kind k = .ok b → a.isLeaf = true → b.isScope = true → f.NodesApart f h k

theorem mem_toOption {α : Type} {r : Except Fault α} {x : α} : x ∈ r.toOption ↔ r = .ok x := by
  cases r <;> simp [Except.toOption]

instance (f : Forest) : Decidable f.ConflictFree :=
  decidable_of_iff (∃ o ∈ (f.outline root).toOption, o.conflictFree = true)
    (by simp only [mem_toOption, ConflictFree])

instance (f : Forest) : Decidable f.DuplicateFree :=
  decidable_of_iff (∃ o ∈ (f.outline root).toOption, ∀ h ∈ o.handles, ∀ h' ∈ o.handles,
    ∀ keys ∈ (f.keys h).toOption, ∀ keys' ∈ (f.keys h').toOption, ∀ key ∈ keys, key ∈ keys' → h = h')
    (by simp only [mem_toOption, DuplicateFree]; grind)

instance (f : Forest) : Decidable f.PlainlyNamed :=
  decidable_of_iff (∃ o ∈ (f.outline root).toOption, ∀ h ∈ o.handles, ∀ k ∈ (f.kind h).toOption,
    ∀ s ∈ k.scope?, s.isPlain = true)
    (by simp only [mem_toOption, Kind.mem_scope?_iff, PlainlyNamed]; grind)

instance (f g : Forest) (h k : Handle) : Decidable (f.NodesApart g h k) :=
  decidable_of_iff (∀ keys ∈ (f.keys h).toOption, ∀ keys' ∈ (g.keys k).toOption,
    ∀ key ∈ keys, key ∉ keys') (by simp only [mem_toOption, NodesApart, List.Disjoint]; grind)

instance (f : Forest) : Decidable f.SortsApart :=
  decidable_of_iff (∃ o ∈ (f.outline root).toOption, ∀ h ∈ o.handles, ∀ k ∈ o.handles,
    ∀ a ∈ (f.kind h).toOption, ∀ b ∈ (f.kind k).toOption, a.isLeaf = true → b.isScope = true →
      f.NodesApart f h k) (by simp only [mem_toOption, SortsApart]; grind)

def ofItems (items : List Document.Item) : Forest := Document.plantAll root .empty items

def sampleModule : Forest :=
  ⟨#[{ kind := .plain .tree, notes := { comments := ["a", "a"] }, children := [1] },
    { kind := .plain (.scope (.moduleNamed "A")), parent := some root, children := [2, 3] },
    { kind := .plain (.leaf (.attribute { kind := .accessor, names := ["x", "y"] })), parent := some 1 },
    { kind := .plain (.leaf (.method { name := "z", signatures := [{}] })), parent := some 1 }]⟩

variable {f : Forest} {o : Outline} {e e' : Entry}

namespace Shows

variable (h : f.Shows o)
include h

theorem conflictFree (hc : f.ConflictFree) : o.conflictFree = true := by
  obtain ⟨o', ho', hc⟩ := hc
  cases h.outline.symm.trans ho'
  exact hc

theorem keys_of_mem (he : e ∈ o.census "") : f.keys e.handle = .ok e.keys := by
  obtain ⟨path, cs, rfl, hname, -⟩ := Outline.exists_path_of_mem_census he
  rw [keys_of_holds h.holds h.nodup, hname]
  rfl

theorem kind_of_mem (he : e ∈ o.census "") : f.kind e.handle = .ok (.plain e.content) := by
  obtain ⟨path, cs, rfl, -, -⟩ := Outline.exists_path_of_mem_census he
  exact kind_of_holds h.holds

theorem eq_of_mem_keys (hd : f.DuplicateFree) (he : e ∈ o.census "") (he' : e' ∈ o.census "")
    {key : String} (hk : key ∈ e.keys) (hk' : key ∈ e'.keys) : e = e' := by
  obtain ⟨o', ho', hd⟩ := hd
  cases h.outline.symm.trans ho'
  have hh := hd _ (Outline.handle_mem_of_census he) _ (Outline.handle_mem_of_census he') _ _
    (h.keys_of_mem he) (h.keys_of_mem he') key hk hk'
  exact Outline.census_unique h.nodup he he' hh

theorem apart_of_sorts (ha : f.SortsApart) (he : e ∈ o.census "") (he' : e' ∈ o.census "")
    {l : Leaf} {s : Scope} (hl : e.content = .leaf l) (hs : e'.content = .scope s) : e.Apart e' := by
  obtain ⟨o', ho', ha⟩ := ha
  cases h.outline.symm.trans ho'
  refine ha _ (Outline.handle_mem_of_census he) _ (Outline.handle_mem_of_census he') _ _
    (h.kind_of_mem he) (h.kind_of_mem he') ?_ ?_ _ _ (h.keys_of_mem he) (h.keys_of_mem he')
  · rw [hl]
    rfl
  · rw [hs]
    rfl

theorem pairwise_apart (hd : f.DuplicateFree) : (o.census "").Pairwise Entry.Apart := by
  refine (Outline.nodup_census "" h.nodup).imp_of_mem ?_
  intro e e' he he' hne key hk hk'
  exact hne (h.eq_of_mem_keys hd he he' hk hk')

theorem isPlain_outer (hp : f.PlainlyNamed) (he : e ∈ o.census "") : isPlain e.outer = true := by
  obtain ⟨o', ho', hp⟩ := hp
  cases h.outline.symm.trans ho'
  refine Outline.isPlain_outer ?_ (by decide) e he
  intro e he s hs
  refine hp _ (Outline.handle_mem_of_census he) s ?_
  rw [h.kind_of_mem he, hs]

end Shows

end Forest

end Reconcile
