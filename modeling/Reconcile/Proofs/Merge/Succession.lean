import Reconcile.Proofs.Merge.Copying
import Reconcile.Proofs.Merge.Itinerary
import Reconcile.Proofs.Merge.Readiness

namespace Reconcile

/-- The declaration `a` is, or is around, a scope that has one of the names. -/
def Outline.Encloses (T : Outline) (a : Entry) (names : List String) : Prop :=
  ∃ a' ∈ T.census "", a'.content.scope?.isSome = true ∧ T.Covers a.handle a'.handle ∧
    ∃ name ∈ names, name ∈ a'.keys

theorem Outline.Encloses.mono {T : Outline} {a : Entry} {names names' : List String}
    (h : T.Encloses a names) (hs : names ⊆ names') : T.Encloses a names' := by
  obtain ⟨a', ha', hscope, hcov, name, hn, hk⟩ := h
  exact ⟨a', ha', hscope, hcov, name, hs hn, hk⟩

namespace Merge

variable {o : Options} {P Q R : Draft} {T : Outline} {e : Event} {around : List String} {bs : List Entry} {a b : Entry}
  {h : Handle} {key : String}

/-- The draft consists of what is left of the tree `T` and of declarations that came later. For the
ones that are still to come nothing counts but the tree. -/
structure Draft.Follows (P : Draft) (T : Outline) (around : List String) (bs : List Entry) :
    Prop where
  standing : P.Standing
  free : P.outline.conflictFree = true
  names : P.entered.map (·.2) = around
  next : ∀ a ∈ T.census "", copyOf T a.handle < P.next
  index : ∀ b ∈ bs, ∀ x ∈ P.index.newest, x.1 ∈ b.keys →
    ∃ a ∈ T.census "", copyOf T a.handle = x.2 ∧ x.1 ∈ a.keys
  stays : ∀ a ∈ T.census "", ∀ d ∈ P.census, d.handle = copyOf T a.handle →
    Stays { a with handle := copyOf T a.handle } d
  covers : ∀ a ∈ T.census "", ∀ a' ∈ T.census "",
    P.outline.Covers (copyOf T a.handle) (copyOf T a'.handle) → T.Covers a.handle a'.handle
  rooted : ∀ x rest, x :: rest <:+ P.entered → ∀ a ∈ T.census "",
    P.outline.Covers (copyOf T a.handle) x.1 → T.Encloses a ((x :: rest).map (·.2))

theorem qualify_of_mem_keys (hs : a.content.scope?.isSome = true) (hk : key ∈ a.keys) :
    a.content.qualify a.outer = key := by
  rw [Entry.keys] at hk
  cases hc : a.content with
  | scope s =>
      rw [hc] at hk
      exact (List.mem_singleton.mp hk).symm
  | tree | visibilityGroup | group | leaf => simp [hc, Content.scope?] at hs

theorem copyOf_ne_root (T : Outline) (h : Handle) : copyOf T h ≠ Forest.root :=
  Nat.ne_of_gt (Nat.add_pos_left Nat.one_pos _)

theorem Stays.trans {d d' d'' : Entry} (h : Stays d d') (h' : Stays d' d'') : Stays d d'' :=
  ⟨h'.handle.trans h.handle, h'.outer.trans h.outer, h'.scope.trans h.scope, h'.name.trans h.name⟩

namespace Draft.Follows

variable (hf : P.Follows T around bs)
include hf

theorem name_eq : P.name = innermost around := by
  rw [← hf.names, innermost, Draft.name, List.head?_map]

theorem exists_scope (hb : b ∈ bs) (hk : key ∈ b.keys) (hu : P.scopeUnder? key = some h) :
    ∃ a ∈ T.census "", copyOf T a.handle = h ∧ key ∈ a.keys ∧ a.content.scope?.isSome = true := by
  have hm := Draft.mem_recent_iff.mp (List.mem_of_find?_eq_some hu)
  obtain ⟨a, ha, rfl, hka⟩ := hf.index b hb _ hm hk
  obtain ⟨d, hd, hh, s, hs⟩ := Draft.exists_of_isScopeAt (List.find?_some hu)
  refine ⟨a, ha, rfl, hka, (hf.stays a ha d hd hh).scope.symm.trans ?_⟩
  rw [hs]
  rfl

theorem exists_previous (hb : b ∈ bs) (hu : P.previous? b.keys = some (key, h)) :
    ∃ a ∈ T.census "", copyOf T a.handle = h ∧ b.Shares a := by
  obtain ⟨hk, hm⟩ := Draft.mem_of_previous hu
  obtain ⟨a, ha, hh, hka⟩ := hf.index b hb _ hm hk
  exact ⟨a, ha, hh, key, hk, hka⟩

theorem current (ha : a ∈ T.census "") (hc : P.outline.Covers (copyOf T a.handle) P.current) :
    T.Encloses a around := by
  cases hen : P.entered with
  | nil =>
      -- Nothing is around the root, which is no copy of a declaration.
      have hroot : P.current = P.outline.handle := by
        rw [Draft.current, hen, hf.standing.root.1]
        rfl
      rw [hroot] at hc
      have heq := Outline.eq_of_covers_handle hf.standing.nodup_outline hc
      rw [hf.standing.root.1] at heq
      exact absurd heq (copyOf_ne_root T _)
  | cons x rest =>
      have hx : P.current = x.1 := by
        rw [Draft.current, hen]
        rfl
      rw [hx] at hc
      rw [← hf.names, hen]
      exact hf.rooted x rest (hen ▸ List.suffix_refl _) a ha hc

end Draft.Follows

theorem Copies.follows (hc : T.conflictFree = true) (hn : T.handles.Nodup)
    (h : Copies o (copyOf T) [] .tree {} [] [T] .empty P) (bs : List Entry) : P.Follows T [] bs := by
  have hv : P.Valid := h.runs.valid Draft.valid_empty
  have hout := h.outline
  rw [List.flatMap_singleton, List.flatMap_singleton, Outline.plug, List.nil_append] at hout
  have hen : P.entered = [] := h.entered
  refine ⟨hv.standing, ?_, by rw [hen]; rfl, ?_, ?_, ?_, ?_, ?_⟩
  · rw [hout, Outline.conflictFree_node]
    intro x hx
    obtain ⟨y, hy, rfl⟩ := List.mem_map.mp hx
    exact Outline.conflictFree_rename (Outline.conflictFree_flat hc y hy)
  · intro a ha
    have hm : a.handle ∈ T.declared := List.mem_map_of_mem ha
    rw [h.next, List.flatMap_singleton]
    exact Nat.add_lt_add_left (List.idxOf_lt_length_of_mem hm) 1
  · intro b _ x hx _
    exact (h.mem_newest_first hc).mp hx
  · intro a ha d hd hh
    obtain ⟨a', ha', hg, hcontent⟩ := exists_of_forall₂ (List.Forall₂.flip (h.census_first hc)) d hd
    cases copyOf_injective hn ha' ha (hg.handle.symm.trans hh)
    refine ⟨hh, hg.outer, by rw [hcontent], by rw [hcontent, hg.outer]⟩
  · intro a ha a' ha' hcov
    rw [hout, Outline.covers_node] at hcov
    rcases hcov with ⟨hroot, -⟩ | ⟨x, hx, hcov⟩
    · exact absurd hroot (copyOf_ne_root T _)
    · obtain ⟨y, hy, rfl⟩ := List.mem_map.mp hx
      exact hcov.of_flat hc (fun _ hk _ _ heq => copyOf_inj hk heq) hy (List.mem_map_of_mem ha)
        (List.mem_map_of_mem ha')
  · intro x rest hx
    rw [hen] at hx
    cases List.suffix_nil.mp hx

/-- A visit finds its place. A header means the same where the scope is that it is for, and a leaf has
no key of anything that is around the scopes that are open. -/
structure Visit.Fits (T : Outline) (v : Visit) : Prop where
  carry : v.event.isCarry = false
  header : ∀ s n, v.event = .enter s n → ∀ a ∈ T.census "", a.content.scope?.isSome = true →
    s.qualify v.outer ∈ a.keys → s.qualify a.outer = s.qualify v.outer
  leaf : ∀ b ∈ v.arrival?, ∀ l, b.content = .leaf l → ∀ a ∈ T.census "", b.Shares a →
    ¬ T.Encloses a v.around

variable {v : Visit} {vs : List Visit}

theorem Draft.Follows.ready (hf : P.Follows T v.around (entries (v :: vs))) (hv : v.Fits T) :
    P.Ready v.event := by
  have hname : P.name = v.outer := hf.name_eq
  have scope {s : Scope} {n : Notes} (he : v.event = .enter s n) {h : Handle}
      (hu : P.scopeUnder? (s.qualify P.name) = some h) {d : Entry} (hd : d ∈ P.census)
      (hh : d.handle = h) : ∃ a ∈ T.census "", a.content.scope?.isSome = true ∧
        s.qualify P.name ∈ a.keys ∧ Stays { a with handle := copyOf T a.handle } d := by
    have hb := Visit.arrival?_enter he
    have hk : s.qualify P.name ∈ (⟨v.handle, v.outer, .scope s, n⟩ : Entry).keys := by
      simp [Entry.keys, Content.keys, hname]
    obtain ⟨a, ha, rfl, hka, hscope⟩ := hf.exists_scope (mem_entries hb vs) hk hu
    exact ⟨a, ha, hscope, hka, hf.stays a ha d hd hh⟩
  refine ⟨?_, ?_, ?_⟩
  · cases he : v.event with
    | enter s n =>
        intro h hu d hd hh
        obtain ⟨a, ha, hscope, hka, hstays⟩ := scope he hu hd hh
        exact hstays.name.trans (qualify_of_mem_keys hscope hka)
    | leave | declare | remark | carry => trivial
  · intro s n he h hu d hd hh
    obtain ⟨a, ha, hscope, hka, hstays⟩ := scope he hu hd hh
    rw [hname] at hka ⊢
    rw [hstays.outer]
    exact hv.header s n he a ha hscope hka
  · intro l n he key h hu x hx hc
    have hb := Visit.arrival?_declare he
    rw [hname] at hu
    obtain ⟨a, ha, rfl, hshares⟩ := hf.exists_previous (mem_entries hb vs) hu
    obtain ⟨before, rest, hen⟩ := List.append_of_mem hx
    have henc := hf.rooted x rest (hen ▸ List.suffix_append _ _) a ha hc
    refine hv.leaf _ hb l rfl a ha hshares (henc.mono ?_)
    rw [← hf.names, hen]
    exact List.map_subset _ (List.subset_append_right _ _)

theorem Turn.names (ht : Turn P e Q) (h : Handle) :
    Q.entered.map (·.2) = Visit.next ⟨h, P.entered.map (·.2), e⟩ := by
  have hopened (h' : Handle) (he : e ≠ .leave) :
      (P.opened h' e).map (·.2) = Visit.next ⟨h, P.entered.map (·.2), e⟩ := by
    cases e with
    | enter s n => simp [Draft.opened, Visit.next, Visit.outer, innermost, Draft.name]
    | leave => exact absurd rfl he
    | declare | remark | carry => rfl
  cases ht with
  | added e d n path c m cs hd =>
      refine hopened P.next ?_
      rintro rfl
      cases hd
  | revised e path h' c m cs c' m' hp hq hr =>
      refine hopened h' ?_
      rintro rfl
      cases hr
  | supplanted => rfl
  | left => exact List.map_tail

theorem Turn.entered_suffix (ht : Turn P e Q) (he : ∀ s n, e ≠ .enter s n) :
    Q.entered <:+ P.entered := by
  have hopened (h : Handle) : P.opened h e = P.entered := by
    cases e with
    | enter s n => exact absurd rfl (he s n)
    | leave | declare | remark | carry => rfl
  cases ht with
  | added => exact hopened _ ▸ List.suffix_refl _
  | revised => exact hopened _ ▸ List.suffix_refl _
  | supplanted => exact List.suffix_refl _
  | left => exact List.tail_suffix _

theorem Turn.rooted (ht : Turn P v.event Q) (hf : P.Follows T v.around (entries (v :: vs))) :
    ∀ x rest, x :: rest <:+ Q.entered → ∀ a ∈ T.census "",
      Q.outline.Covers (copyOf T a.handle) x.1 → T.Encloses a ((x :: rest).map (·.2)) := by
  intro x rest hx a ha hc
  have old (hx : x :: rest <:+ P.entered) : T.Encloses a ((x :: rest).map (·.2)) := by
    obtain ⟨d, hd, hh, -⟩ := hf.standing.entered x (hx.subset List.mem_cons_self)
    exact hf.rooted x rest hx a ha (ht.covers (hh ▸ hf.standing.lt_next hd) hc)
  by_cases he : ∃ s n, v.event = .enter s n
  · obtain ⟨s, n, he⟩ := he
    have hb := Visit.arrival?_enter he
    rw [he] at ht
    obtain ⟨h, place, hen, hplace, hcov⟩ := ht.enters hf.standing
    rw [hen, List.suffix_cons_iff] at hx
    rcases hx with heq | hx
    · cases heq
      have hc := hcov _ (hf.next a ha) hc
      -- A header is added to the scope that was open, or it is for a scope of the first tree.
      rcases hplace with rfl | hu
      · rw [List.map_cons, hf.names]
        exact (hf.current ha hc).mono (List.subset_cons_self _ _)
      · have hk : s.qualify P.name ∈ (⟨v.handle, v.outer, .scope s, n⟩ : Entry).keys := by
          simp [Entry.keys, Content.keys, hf.name_eq, Visit.outer]
        obtain ⟨a', ha', rfl, hka, hscope⟩ := hf.exists_scope (mem_entries hb vs) hk hu
        exact ⟨a', ha', hscope, hf.covers a ha a' ha' hc, _, List.mem_cons_self, hka⟩
    · exact old hx
  · simp only [not_exists] at he
    exact old (hx.trans (ht.entered_suffix he))

theorem Turn.follows (ht : Turn P v.event Q) (hf : P.Follows T v.around (entries (v :: vs)))
    (hap : (entries (v :: vs)).Pairwise Entry.Apart) : Q.Follows T v.next (entries vs) where
  standing := ht.standing hf.standing hf.free
  free := ht.conflictFree hf.free
  names := by
    rw [ht.names v.handle, hf.names]
  next a ha := Nat.lt_of_lt_of_le (hf.next a ha) ht.next_le
  index b hb x hx hk := by
    rcases ht.index hx with hx | ⟨-, c, n, hd, hkc⟩
    · exact hf.index b (entries_subset v vs hb) x hx hk
    -- No later declaration has a key of the one that has just been registered.
    · have hv := Visit.arrival?_of_declaration hd
      rw [entries, List.filterMap_cons_some hv, List.pairwise_cons] at hap
      rw [hf.name_eq] at hkc
      exact absurd hk (hap.1 b hb hkc)
  stays a ha d hd hh := by
    obtain ⟨d₀, hd₀, hstays⟩ := ht.origin hd (hh ▸ hf.next a ha)
    exact (hf.stays a ha d₀ hd₀ (hstays.handle.symm.trans hh)).trans hstays
  covers a ha a' ha' hc := hf.covers a ha a' ha' (ht.covers (hf.next a' ha') hc)
  rooted := ht.rooted hf

end Merge

end Reconcile
