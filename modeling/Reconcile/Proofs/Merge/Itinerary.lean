import Reconcile.Proofs.Forest.Cover
import Reconcile.Proofs.Merge.Encounter

namespace Reconcile

open Merge (Event)

namespace Merge

/-- An event with the node that it comes from and the names of the scopes around it, innermost first. -/
structure Visit where
  handle : Handle
  around : List String
  event : Event

def innermost (around : List String) : String := around.head?.getD ""

@[simp] theorem innermost_cons (name : String) (around : List String) :
    innermost (name :: around) = name := rfl

def inside (around : List String) : Content → List String
  | .scope s => s.qualify (innermost around) :: around
  | _ => around

theorem innermost_inside (around : List String) (c : Content) :
    innermost (inside around c) = c.qualify (innermost around) := by
  cases c <;> rfl

namespace Visit

def outer (v : Visit) : String := innermost v.around

@[simp] theorem outer_mk (h : Handle) (around : List String) (e : Event) :
    outer ⟨h, around, e⟩ = innermost around := rfl

def next (v : Visit) : List String :=
  match v.event with
  | .enter s _ => s.qualify v.outer :: v.around
  | .leave => v.around.tail
  | _ => v.around

def arrival? (v : Visit) : Option Entry :=
  v.event.declaration?.map fun d => ⟨v.handle, v.outer, d.1, d.2⟩

theorem arrival?_of_declaration {v : Visit} {c : Content} {n : Notes}
    (hd : v.event.declaration? = some (c, n)) : v.arrival? = some ⟨v.handle, v.outer, c, n⟩ := by
  rw [arrival?, hd]
  rfl

theorem arrival?_enter {v : Visit} {s : Scope} {n : Notes} (he : v.event = .enter s n) :
    v.arrival? = some ⟨v.handle, v.outer, .scope s, n⟩ :=
  arrival?_of_declaration (by rw [he]; rfl)

theorem arrival?_declare {v : Visit} {l : Leaf} {n : Notes} (he : v.event = .declare l n) :
    v.arrival? = some ⟨v.handle, v.outer, .leaf l, n⟩ :=
  arrival?_of_declaration (by rw [he]; rfl)

end Visit

/-- Each visit takes place among the scopes that the visits before it have left open. -/
inductive Chained : List String → List Visit → List String → Prop
  | nil (around : List String) : Chained around [] around
  | cons (v : Visit) {vs : List Visit} {around : List String} (h : Chained v.next vs around) :
      Chained v.around (v :: vs) around

theorem Chained.append {a b c : List String} {vs ws : List Visit} (h : Chained a vs b)
    (h' : Chained b ws c) : Chained a (vs ++ ws) c := by
  induction h with
  | nil => exact h'
  | cons v _ ih => exact .cons v (ih h')

section

variable {v : Visit} {vs : List Visit} {b : Entry}

def entries (vs : List Visit) : List Entry := vs.filterMap Visit.arrival?

theorem mem_entries (hb : b ∈ v.arrival?) (vs : List Visit) : b ∈ entries (v :: vs) := by
  rw [entries, List.filterMap_cons_some hb]
  exact List.mem_cons_self

theorem entries_subset (v : Visit) (vs : List Visit) : entries vs ⊆ entries (v :: vs) :=
  ((List.sublist_cons_self v vs).filterMap _).subset

theorem exists_visit {pre post : List Entry} (h : entries vs = pre ++ b :: post) :
    ∃ before v after, vs = before ++ v :: after ∧ v.arrival? = some b ∧ entries after = post := by
  obtain ⟨before, rest, rfl, -, hrest⟩ := List.filterMap_eq_append_iff.mp h
  obtain ⟨skipped, v, after, rfl, -, hv, hafter⟩ := List.filterMap_eq_cons_iff.mp hrest
  exact ⟨before ++ skipped, v, after, by simp, hv, hafter⟩

theorem event_of_leaf (hb : v.arrival? = some b) {l : Leaf} (hl : b.content = .leaf l) :
    v.event = .declare l b.notes := by
  obtain ⟨⟨c, n⟩, hd, rfl⟩ := Option.map_eq_some_iff.mp hb
  cases hl
  cases he : v.event with
  | declare l n =>
      rw [he] at hd
      cases hd
      rfl
  | enter | leave | remark | carry =>
      rw [he] at hd
      cases hd

end

end Merge

namespace Outline

open Merge (Visit Chained innermost inside innermost_inside)

mutual

def visits (around : List String) : Outline → List Visit
  | node h (.scope s) notes children =>
      ⟨h, around, .enter s notes⟩ :: visitsOfAll (s.qualify (innermost around) :: around) children ++
        [⟨h, s.qualify (innermost around) :: around, .leave⟩]
  | node h (.leaf l) notes _ => [⟨h, around, .declare l notes⟩]
  | node h _ notes children => ⟨h, around, .remark notes.comments⟩ :: visitsOfAll around children
  | conflict h form labels notes left right =>
      [⟨h, around, .carry (.conflict h form labels notes left right)⟩]

def visitsOfAll (around : List String) : List Outline → List Visit
  | [] => []
  | o :: os => o.visits around ++ visitsOfAll around os

end

@[simp] theorem visitsOfAll_eq (around : List String) (os : List Outline) :
    visitsOfAll around os = os.flatMap (visits around) := by
  induction os with
  | nil => rfl
  | cons o os ih => simp [visitsOfAll, ih]

variable {o : Outline} {around : List String} {v : Visit}

theorem script_visits (around : List String) (o : Outline) :
    (o.visits around).map (fun v => (v.outer, v.event)) = o.script (innermost around) := by
  induction o generalizing around with
  | node h c n cs ih =>
      have hcs (around : List String) :
          (cs.flatMap (visits around)).map (fun v => (v.outer, v.event)) =
            cs.flatMap (script (innermost around)) := by
        rw [List.map_flatMap]
        exact List.flatMap_congr fun o ho => ih o ho around
      cases c <;> simp [visits, script, hcs]
  | conflict => rfl

theorem map_event_visits (around : List String) (o : Outline) :
    (o.visits around).map Visit.event = o.events := by
  rw [← map_snd_script (innermost around) o, ← script_visits, List.map_map]
  rfl

theorem entries_visits (hs : o.sound = true) (hc : o.conflictFree = true) (around : List String) :
    Merge.entries (o.visits around) = o.census (innermost around) := by
  induction o generalizing around with
  | conflict => cases hc
  | node h c n cs ih =>
      rw [sound_node] at hs
      rw [conflictFree_node] at hc
      have hcs (around : List String) : Merge.entries (cs.flatMap (visits around)) =
          cs.flatMap (census (innermost around)) := by
        rw [Merge.entries, List.filterMap_flatMap]
        exact List.flatMap_congr fun x hx => ih x hx (hs.2 x hx) (hc x hx) around
      cases c with
      | leaf l =>
          cases hs.1.resolve_left (by simp [Content.isContainer])
          simp [Merge.entries, visits, Visit.arrival?, Merge.Event.declaration?, ownEntry,
            Content.isDeclaration]
      | scope s =>
          rw [census_node, ← innermost_inside, ← hcs]
          simp [Merge.entries, visits, Visit.arrival?, Merge.Event.declaration?, ownEntry,
            Content.isDeclaration, inside]
      | tree | visibilityGroup | group =>
          rw [census_node, qualify_container rfl, ← hcs]
          simp only [visits, visitsOfAll_eq]
          rw [Merge.entries, List.filterMap_cons_none rfl]
          rfl

theorem chained_visits (around : List String) (o : Outline) :
    Chained around (o.visits around) around := by
  induction o generalizing around with
  | conflict => exact .cons ⟨_, around, .carry _⟩ (.nil around)
  | node h c n cs ih =>
      have hcs (around : List String) : Chained around (cs.flatMap (visits around)) around := by
        induction cs with
        | nil => exact .nil around
        | cons x cs ihcs =>
            exact (ih x (by simp) around).append (ihcs fun y hy => ih y (by simp [hy]))
      cases c with
      | leaf l => exact .cons ⟨h, around, .declare l n⟩ (.nil around)
      | scope s =>
          simp only [visits, visitsOfAll_eq]
          refine .append (b := s.qualify (innermost around) :: around) ?_ ?_
          · exact .cons ⟨h, around, .enter s n⟩ (hcs _)
          · exact .cons ⟨h, _ :: around, .leave⟩ (.nil around)
      | tree | visibilityGroup | group =>
          simp only [visits, visitsOfAll_eq]
          exact .cons ⟨h, around, .remark n.comments⟩ (hcs around)

theorem mem_visits_node {h : Handle} {c : Content} {n : Notes} {cs : List Outline}
    (hv : v ∈ (node h c n cs).visits around) :
    v.handle = h ∧ v.event.isCarry = false ∧ v.around ⊆ inside around c ∨
      ∃ x ∈ cs, v ∈ x.visits (inside around c) := by
  cases c with
  | leaf l =>
      cases List.mem_singleton.mp hv
      exact Or.inl ⟨rfl, rfl, List.Subset.refl _⟩
  | scope s =>
      simp only [visits, visitsOfAll_eq, List.cons_append, List.mem_cons, List.mem_append,
        List.not_mem_nil, or_false] at hv
      rcases hv with rfl | hv | rfl
      · exact Or.inl ⟨rfl, rfl, List.subset_cons_self _ _⟩
      · exact Or.inr (List.mem_flatMap.mp hv)
      · exact Or.inl ⟨rfl, rfl, List.Subset.refl _⟩
  | tree | visibilityGroup | group =>
      simp only [visits, visitsOfAll_eq, List.mem_cons] at hv
      rcases hv with rfl | hv
      · exact Or.inl ⟨rfl, rfl, List.Subset.refl _⟩
      · exact Or.inr (List.mem_flatMap.mp hv)

theorem isCarry_of_mem_visits (hc : o.conflictFree = true) (hv : v ∈ o.visits around) :
    v.event.isCarry = false := by
  induction o generalizing around with
  | conflict => cases hc
  | node h c n cs ih =>
      rw [conflictFree_node] at hc
      rcases mem_visits_node hv with ⟨-, hcarry, -⟩ | ⟨x, hx, hv⟩
      · exact hcarry
      · exact ih x hx (hc x hx) hv

theorem handle_mem_of_visits (hv : v ∈ o.visits around) : v.handle ∈ o.handles := by
  induction o generalizing around with
  | conflict =>
      cases List.mem_singleton.mp hv
      exact handle_mem_handles _
  | node h c n cs ih =>
      rw [handles_node]
      rcases mem_visits_node hv with ⟨rfl, -, -⟩ | ⟨x, hx, hv⟩
      · exact List.mem_cons_self
      · exact List.mem_cons_of_mem _ (handles_subset hx (ih x hx hv))

theorem exists_scope_of_around (hc : o.conflictFree = true) (hv : v ∈ o.visits around) {name : String}
    (hn : name ∈ v.around) : name ∈ around ∨ ∃ e ∈ o.census (innermost around),
      (∃ s, e.content = .scope s ∧ s.qualify e.outer = name) ∧ o.Covers e.handle v.handle := by
  induction o generalizing around with
  | conflict => cases hc
  | node h c n cs ih =>
      have hm := handle_mem_of_visits hv
      rw [conflictFree_node] at hc
      -- Only a scope adds a name to those around it, which is its own.
      have own (hn : name ∈ inside around c) : name ∈ around ∨
          ∃ e ∈ (node h c n cs).census (innermost around),
            (∃ s, e.content = .scope s ∧ s.qualify e.outer = name) ∧
              (node h c n cs).Covers e.handle v.handle := by
        cases c with
        | scope s =>
            rcases List.mem_cons.mp hn with rfl | hn
            · refine Or.inr ⟨⟨h, innermost around, .scope s, n⟩, ?_, ⟨s, rfl, rfl⟩, covers_handle hm⟩
              simp [census_node, ownEntry, Content.isDeclaration]
            · exact Or.inl hn
        | leaf | tree | visibilityGroup | group => exact Or.inl hn
      rcases mem_visits_node hv with ⟨-, -, hsub⟩ | ⟨x, hx, hv⟩
      · exact own (hsub hn)
      · rcases ih x hx (hc x hx) hv with hn | ⟨e, he, hs, hcov⟩
        · exact own hn
        · refine Or.inr ⟨e, ?_, hs, covers_node.mpr (Or.inr ⟨x, hx, hcov⟩)⟩
          rw [census_node, ← innermost_inside]
          exact List.mem_append_right _ (List.mem_flatMap.mpr ⟨x, hx, he⟩)

end Outline

end Reconcile
