import Reconcile.Proofs.Normal.Rework

namespace Reconcile

namespace Outline

def gathered (c : Content) (pick : Outline → Bool) (τ : Outline → Outline) (cs : List Outline) :
    List Outline :=
  if cs.any pick then cs.filter (!pick ·) ++ [node 0 c {} ((cs.filter pick).map τ)] else cs

def isSingletonMethod (o : Outline) : Bool := o.kind.isSingletonMethod

def clearSingleton : Outline → Outline
  | node h (.leaf (.method m)) n cs => node h (.leaf (.method { m with isSingleton := false })) n cs
  | o => o

def hasVisibility (v : Visibility) (o : Outline) : Bool := o.kind.visibility? = some v

def isGroup (c : Content) : Bool :=
  match c with
  | .group _ => true
  | _ => false

def released : Outline → List (Category × Outline)
  | node _ (.group k) _ cs => cs.map (k, ·)
  | o => [(o.kind.category, o)]

def members (cs : List Outline) (k : Category) : List Outline :=
  ((cs.flatMap released).filter (·.1 = k)).map (·.2)

def grouped (ms : Category → List Outline) : List Outline :=
  Category.all.flatMap fun k => if (ms k).isEmpty then [] else [node 0 (.group k) {} (ms k)]

def isMarker (o : Outline) : Bool :=
  match o.kind with
  | .plain (.leaf (.marker _)) => true
  | _ => false

def sortKey : Outline → SortKey
  | node _ c _ _ => ⟨(Kind.plain c).rank, c.sortName?⟩
  | conflict h .headers labels n l r => ⟨(conflict h .headers labels n l r).kind.rank, l.kind.name?⟩
  | conflict h .declarations labels n l r => ⟨(conflict h .declarations labels n l r).kind.rank, none⟩

def sorted (cs : List Outline) : List Outline := sortBy (fun x y => x.sortKey.le y.sortKey) cs

end Outline

open Outline

def Pass.rule : Pass → Rule
  | .nestSingletons => fun _ _ cs =>
      gathered (.scope .singleton) isSingletonMethod clearSingleton cs
  | .nestVisibilities => fun inside _ cs =>
      if inside then cs
      else Visibility.all.foldl (fun cs v => gathered (.visibilityGroup v) (hasVisibility v) id cs) cs
  | .group => fun _ c cs => if isGroup c then cs else grouped (members cs)
  | .sort => fun _ _ cs => if cs.any isMarker then cs else sorted cs

def Pass.reworked (p : Pass) (o : Outline) : Outline := o.rework p.rule false

namespace Outline

variable {c : Content} {pick : Outline → Bool} {τ : Outline → Outline} {cs : List Outline} {o : Outline}
  {i : Bool}

theorem mem_gathered : o ∈ gathered c pick τ cs ↔ (o ∈ cs ∧ pick o = false) ∨
    cs.any pick = true ∧ o = node 0 c {} ((cs.filter pick).map τ) := by
  rw [gathered]
  split
  · next h => simp [h]
  · next h =>
      simp only [List.any_eq_true, not_exists, not_and, Bool.not_eq_true] at h
      simp only [List.any_eq_true]
      constructor
      · intro ho
        exact Or.inl ⟨ho, h o ho⟩
      · rintro (ho | ⟨⟨x, hx, hp⟩, -⟩)
        · exact ho.1
        · rw [h x hx] at hp
          cases hp

theorem gathered_of_none (h : ∀ x ∈ cs, pick x = false) : gathered c pick τ cs = cs := by
  have hany : cs.any pick = false := by
    rw [List.any_eq_false]
    intro x hx
    simp [h x hx]
  simp [gathered, hany]

theorem mem_sections {vs : List Visibility} (ho : o ∈ vs.foldl
      (fun cs v => gathered (.visibilityGroup v) (hasVisibility v) id cs) cs) :
    (o ∈ cs ∧ ∀ v ∈ vs, o.hasVisibility v = false) ∨ ∃ v ms,
      o = node 0 (.visibilityGroup v) {} ms ∧ ∀ x ∈ ms, x ∈ cs ∧ x.hasVisibility v = true := by
  induction vs generalizing cs with
  | nil => exact Or.inl ⟨ho, by simp⟩
  | cons v vs ih =>
      rcases ih ho with ⟨ho, hvs⟩ | ⟨w, ms, rfl, hms⟩
      · rcases mem_gathered.mp ho with ⟨ho, hv⟩ | ⟨-, rfl⟩
        · exact Or.inl ⟨ho, by simpa using ⟨hv, hvs⟩⟩
        · refine Or.inr ⟨v, _, rfl, ?_⟩
          intro x hx
          rw [List.map_id] at hx
          exact List.mem_filter.mp hx
      · refine Or.inr ⟨w, ms, rfl, ?_⟩
        intro x hx
        obtain ⟨hm, hw⟩ := hms x hx
        rcases mem_gathered.mp hm with ⟨hm, -⟩ | ⟨-, rfl⟩
        · exact ⟨hm, hw⟩
        · cases hw

/-- A property of kinds holds for all children of a container. -/
def Children (K : Bool → Kind → Prop) (i : Bool) (_ : Content) (cs : List Outline) : Prop :=
  ∀ o ∈ cs, K i o.kind

variable {K : Bool → Kind → Prop}

theorem children_map_rework {g : Rule} (h : Children K i c cs) :
    Children K i c (cs.map (rework g i)) := by
  intro o ho
  obtain ⟨x, hx, rfl⟩ := List.mem_map.mp ho
  rw [kind_rework]
  exact h x hx

theorem leaf_of_isSingletonMethod (ho : o.isSingletonMethod = true) :
    ∃ h m n cs, o = node h (.leaf (.method m)) n cs := by
  cases o with
  | conflict => cases ho
  | node h c n cs =>
      cases c with
      | leaf l =>
          cases l with
          | method m => exact ⟨h, m, n, cs, rfl⟩
          | _ => cases ho
      | _ => cases ho

theorem leaf_of_hasVisibility {v : Visibility} (ho : o.hasVisibility v = true) :
    ∃ h l n cs, o = node h (.leaf l) n cs := by
  cases o with
  | conflict => cases ho
  | node h c n cs =>
      cases c with
      | leaf l => exact ⟨h, l, n, cs, rfl⟩
      | _ => cases ho

theorem flatMap_released (ms : Category → List Outline) (ks : List Category) :
    (ks.flatMap fun k => if (ms k).isEmpty then [] else [node 0 (.group k) {} (ms k)]).flatMap
      released = ks.flatMap fun k => (ms k).map (k, ·) := by
  rw [List.flatMap_assoc]
  refine List.flatMap_congr fun k _ => ?_
  split
  · next h => simp [List.isEmpty_iff.mp h]
  · simp [released]

theorem members_grouped (ms : Category → List Outline) : members (grouped ms) = ms := by
  funext k
  have part (k' : Category) : ((ms k').map (k', ·)).filter (·.1 = k) =
      if k' = k then (ms k').map (k', ·) else [] := by
    split
    · next h => simp [List.filter_map, Function.comp_def, h]
    · next h => simp [List.filter_map, Function.comp_def, h]
  rw [members, grouped, flatMap_released, List.filter_flatMap, List.flatMap_congr fun k' _ => part k']
  cases k <;> simp [Category.all, Function.comp_def]

theorem mem_members {k : Category} (ho : o ∈ members cs k) :
    o ∈ cs ∨ ∃ h n ks, node h (.group k) n ks ∈ cs ∧ o ∈ ks := by
  obtain ⟨⟨k', x⟩, hm, rfl⟩ := List.mem_map.mp ho
  obtain ⟨hf, hk⟩ := List.mem_filter.mp hm
  obtain ⟨y, hy, hx⟩ := List.mem_flatMap.mp hf
  unfold released at hx
  split at hx
  · next h j n ks =>
      obtain ⟨z, hz, he⟩ := List.mem_map.mp hx
      cases he
      have hj : k' = k := by simpa using hk
      subst hj
      exact Or.inr ⟨h, n, ks, hy, hz⟩
  · cases List.mem_singleton.mp hx
    exact Or.inl hy

theorem mem_grouped {ms : Category → List Outline} (ho : o ∈ grouped ms) :
    ∃ k, o = node 0 (.group k) {} (ms k) := by
  obtain ⟨k, -, ho⟩ := List.mem_flatMap.mp ho
  split at ho
  · cases ho
  · exact ⟨k, List.mem_singleton.mp ho⟩

end Outline

end Reconcile
