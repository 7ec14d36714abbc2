import Reconcile.Proofs.Merge.Conservation
import Reconcile.Proofs.Merge.Copying
import Reconcile.Proofs.Merge.Encounter

namespace Reconcile

/-- What a declaration is compared with among others, and under which key: a scope with the scope of
its name, a leaf with whatever has the first of its keys that is in use. -/
def Entry.partner? (as : List Entry) (b : Entry) : Option (String × Entry) :=
  match b.content with
  | .scope s =>
      (as.find? fun a => a.content.scope?.isSome && a.keys.contains (s.qualify b.outer)).map
        (s.qualify b.outer, ·)
  | _ => b.keys.findSome? fun key => (as.find? (·.keys.contains key)).map (key, ·)

namespace Merge

/-- Two declarations that do not agree, with the key under which they meet. -/
structure Clash where
  key : String
  left : Entry
  right : Entry

/-- The declarations that do not agree with their partners, in document order. -/
def clashes (as bs : List Entry) : List Clash :=
  bs.filterMap fun b => (b.partner? as).bind fun p =>
    if p.2.content.compatible b.content then none else some ⟨p.1, p.2, b⟩

variable {o : Options} {P Q : Draft} {as bs : List Entry} {φ : Handle → Handle} {key : String}
  {a b : Entry}

/-- For the declarations that are still to come the draft knows `as` and nothing else. -/
structure Draft.Knows (P : Draft) (as : List Entry) (φ : Handle → Handle) (bs : List Entry) :
    Prop where
  recent : ∀ b ∈ bs, ∀ key ∈ b.keys, ∀ h, h ∈ P.index.recent key ↔
    ∃ a ∈ as, φ a.handle = h ∧ key ∈ a.keys
  content : ∀ b ∈ bs, ∀ key ∈ b.keys, ∀ a ∈ as, key ∈ a.keys →
    ∃ e ∈ P.census, e.handle = φ a.handle ∧ e.content = a.content

/-- Each key belongs to one of the declarations, and each has a handle of its own. -/
structure Distinct (as : List Entry) (φ : Handle → Handle) : Prop where
  keys : ∀ a ∈ as, ∀ a' ∈ as, ∀ key ∈ a.keys, key ∈ a'.keys → a = a'
  handles : ∀ a ∈ as, ∀ a' ∈ as, φ a.handle = φ a'.handle → a = a'

theorem findSome?_congr {α β : Type} {f g : α → Option β} {xs : List α} (h : ∀ x ∈ xs, f x = g x) :
    xs.findSome? f = xs.findSome? g := by
  induction xs with
  | nil => rfl
  | cons x xs ih =>
      rw [List.findSome?_cons, List.findSome?_cons, h x (by simp), ih fun y hy => h y (by simp [hy])]

namespace Draft.Knows

variable (h : P.Knows as φ bs) (ha : Distinct as φ) (hb : b ∈ bs) (hk : key ∈ b.keys)
include h hb hk

theorem recent_eq_nil (hn : ∀ a ∈ as, key ∉ a.keys) : P.index.recent key = [] := by
  rw [List.eq_nil_iff_forall_not_mem]
  intro x hx
  obtain ⟨a, hm, -, hka⟩ := (h.recent b hb key hk x).mp hx
  exact hn a hm hka

include ha

theorem exists_recent (hm : a ∈ as) (hka : key ∈ a.keys) :
    (∃ rest, P.index.recent key = φ a.handle :: rest) ∧ ∀ x ∈ P.index.recent key, x = φ a.handle := by
  have hall : ∀ x ∈ P.index.recent key, x = φ a.handle := by
    intro x hx
    obtain ⟨a', hm', rfl, hka'⟩ := (h.recent b hb key hk x).mp hx
    rw [ha.keys a hm a' hm' key hka hka']
  have hmem : φ a.handle ∈ P.index.recent key := (h.recent b hb key hk _).mpr ⟨a, hm, rfl, hka⟩
  refine ⟨?_, hall⟩
  cases hr : P.index.recent key with
  | nil => rw [hr] at hmem; cases hmem
  | cons x rest => exact ⟨rest, by rw [hall x (by simp [hr])]⟩

theorem last?_eq : P.index.last? key = (as.find? (·.keys.contains key)).map (φ ·.handle) := by
  cases hf : as.find? (·.keys.contains key) with
  | none =>
      rw [List.find?_eq_none] at hf
      rw [Index.last?, h.recent_eq_nil hb hk fun a hm => by simpa using hf a hm]
      rfl
  | some a =>
      have hka : key ∈ a.keys := by simpa using List.find?_some hf
      obtain ⟨⟨rest, hr⟩, -⟩ := h.exists_recent ha hb hk (List.mem_of_find?_eq_some hf) hka
      rw [Index.last?, hr]
      rfl

omit ha in
theorem isScopeAt_eq (hv : P.Valid) (hm : a ∈ as) (hka : key ∈ a.keys) :
    P.isScopeAt (φ a.handle) = a.content.scope?.isSome := by
  obtain ⟨e, he, hh, hc⟩ := h.content b hb key hk a hm hka
  rw [Bool.eq_iff_iff, Draft.isScopeAt, List.any_eq_true, ← hc, ← hh]
  refine ⟨?_, fun hs => ⟨e, he, by simp [hs]⟩⟩
  rintro ⟨e', he', hs⟩
  rw [Bool.and_eq_true, decide_eq_true_eq] at hs
  cases Outline.census_unique hv.nodup_outline he he' hs.1.symm
  exact hs.2

theorem scopeUnder?_eq (hv : P.Valid) : P.scopeUnder? key =
    (as.find? fun a => a.content.scope?.isSome && a.keys.contains key).map (φ ·.handle) := by
  cases hf : as.find? fun a => a.content.scope?.isSome && a.keys.contains key with
  | none =>
      rw [List.find?_eq_none] at hf
      rw [Draft.scopeUnder?, Option.map_none, List.find?_eq_none]
      intro x hx
      obtain ⟨a, hm, rfl, hka⟩ := (h.recent b hb key hk x).mp hx
      rw [h.isScopeAt_eq hb hk hv hm hka]
      intro hs
      exact hf a hm (by simp [hs, hka])
  | some a =>
      have hs := List.find?_some hf
      rw [Bool.and_eq_true] at hs
      have hm := List.mem_of_find?_eq_some hf
      have hka : key ∈ a.keys := by simpa using hs.2
      obtain ⟨⟨rest, hr⟩, -⟩ := h.exists_recent ha hb hk hm hka
      rw [Draft.scopeUnder?, hr, List.find?_cons_of_pos]
      · rfl
      · rw [h.isScopeAt_eq hb hk hv hm hka]
        exact hs.1

omit hk in
theorem previous?_eq {l : Leaf} (hc : b.content = .leaf l) :
    P.previous? (l.keys b.outer) = (b.partner? as).map fun p => (p.1, φ p.2.handle) := by
  have hkeys : b.keys = l.keys b.outer := by rw [Entry.keys, hc, Content.keys]
  simp only [Entry.partner?, hc, Draft.previous?, ← hkeys, List.map_findSome?]
  apply findSome?_congr
  intro key hk
  simp [h.last?_eq ha hb hk, Option.map_map, Function.comp_def]

omit hk in
theorem meets?_eq (hv : P.Valid) (hd : b.content.isDeclaration = true) (ho : b.outer = P.name) :
    P.meets? b.content = (b.partner? as).map fun p => (p.1, φ p.2.handle) := by
  cases hc : b.content with
  | scope s =>
      have hk : s.qualify b.outer ∈ b.keys := by simp [Entry.keys, hc, Content.keys]
      simp only [Draft.meets?, Entry.partner?, hc, ← ho, h.scopeUnder?_eq ha hb hk hv, Option.map_map]
      rfl
  | leaf l =>
      rw [← h.previous?_eq ha hb hc, ho]
      rfl
  | tree | visibilityGroup | group => simp [hc, Content.isDeclaration] at hd

end Draft.Knows

theorem mem_of_partner? (hp : b.partner? as = some (key, a)) : a ∈ as ∧ key ∈ a.keys ∧ key ∈ b.keys := by
  unfold Entry.partner? at hp
  split at hp
  · next s hc =>
      obtain ⟨a', hf, heq⟩ := Option.map_eq_some_iff.mp hp
      cases heq
      have hs := List.find?_some hf
      rw [Bool.and_eq_true] at hs
      exact ⟨List.mem_of_find?_eq_some hf, by simpa using hs.2, by simp [Entry.keys, hc, Content.keys]⟩
  · obtain ⟨key', hk, hf⟩ := List.exists_of_findSome?_eq_some hp
    obtain ⟨a', hf, heq⟩ := Option.map_eq_some_iff.mp hf
    cases heq
    exact ⟨List.mem_of_find?_eq_some hf, by simpa using List.find?_some hf, hk⟩

theorem arrivals_declaration {e : Event} {c : Content} {n : Notes} {name : String}
    (hd : e.declaration? = some (c, n)) (es : List (String × Event)) :
    arrivals ((name, e) :: es) = ⟨Forest.root, name, c, n⟩ :: arrivals es := by
  simp [arrivals, hd]

theorem arrivals_silent {e : Event} {name : String} (hd : e.declaration? = none)
    (es : List (String × Event)) : arrivals ((name, e) :: es) = arrivals es := by
  simp [arrivals, hd]

/-- All that detection needs to know about what is still to come. -/
structure Upcoming (as : List Entry) (bs : List Entry) : Prop where
  apart : bs.Pairwise Entry.Apart
  declared : ∀ b ∈ bs, b.content.isDeclaration = true
  plain : ∀ b ∈ bs, isPlain b.outer = true
  plain' : ∀ a ∈ as, isPlain a.outer = true

theorem Upcoming.sublist {bs' : List Entry} (h : Upcoming as bs) (hs : bs'.Sublist bs) :
    Upcoming as bs' :=
  ⟨h.apart.sublist hs, fun b hb => h.declared b (hs.subset hb), fun b hb => h.plain b (hs.subset hb),
    h.plain'⟩

section

variable {e : Event} {es : List (String × Event)}

theorem arrivals_sublist (name : String) (e : Event) (es : List (String × Event)) :
    (arrivals es).Sublist (arrivals ((name, e) :: es)) :=
  (List.sublist_cons_self _ _).filterMap _

theorem Step.knows (hv : P.Valid) (ha : Distinct as φ)
    (hu : Upcoming as (arrivals ((P.name, e) :: es)))
    (h : P.Knows as φ (arrivals ((P.name, e) :: es))) (hs : Step o P e Q) :
    Q.Knows as φ (arrivals es) := by
  have hsub := (arrivals_sublist P.name e es).subset
  have hnew : ∀ b ∈ arrivals es, ∀ key ∈ b.keys, ∀ c n, e.declaration? = some (c, n) →
      key ∉ c.keys P.name := by
    intro b hb key hk c n hd hkc
    have hap := hu.apart
    rw [arrivals_declaration hd, List.pairwise_cons] at hap
    exact hap.1 b hb hkc hk
  refine ⟨fun b hb key hk x => ?_, fun b hb key hk a hm hka => ?_⟩
  · rw [hs.recent_eq (hnew b hb key hk)]
    exact h.recent b (hsub hb) key hk x
  · obtain ⟨d, hd, hh, hc⟩ := h.content b (hsub hb) key hk a hm hka
    obtain ⟨d', hd', hg, hc' | ⟨c, n, key', hdecl, hmeets, hcomp, -⟩⟩ := hs.content_cases hv hd
    · exact ⟨d', hd', hg.handle.trans hh, hc'.trans hc⟩
    -- An arrival that agrees with `a` has the keys of `a`, so no later one has any of them.
    · have hb₀ : ⟨Forest.root, P.name, c, n⟩ ∈ arrivals ((P.name, e) :: es) := by
        rw [arrivals_declaration hdecl]
        exact List.mem_cons_self
      have hmeets' := h.meets?_eq ha hb₀ hv (hu.declared _ hb₀) rfl
      rw [hmeets] at hmeets'
      obtain ⟨⟨k, a₀⟩, hp, heq⟩ := Option.map_eq_some_iff.mp hmeets'.symm
      obtain ⟨hm₀, hka₀, hkb₀⟩ := mem_of_partner? hp
      rw [Prod.mk.injEq] at heq
      cases ha.handles _ hm₀ _ hm (heq.2.trans hh)
      rw [hc] at hcomp
      have hkeys : a.keys = c.keys P.name := Content.keys_eq_of_compatible hcomp (hu.plain' a hm)
        (hu.plain _ hb₀) hka₀ hkb₀
      rw [hkeys] at hka
      exact absurd hka (hnew b hb key hk c n hdecl)

/-- A record of a clash, with a verbatim copy of the declaration that arrived last. -/
structure Draft.Records (P : Draft) (o : Options) (φ : Handle → Handle) (r : Conflict) (x : Clash) :
    Prop where
  key : r.key = x.key
  left : r.left = φ x.left.handle
  labels : r.labels = o.labels
  right : .node r.right x.right.content x.right.notes [] ∈ P.outline.rivals ++ P.loose

theorem Draft.Records.lasts {r : Conflict} {x : Clash} (h : P.Records o φ r x) (hl : P.Lasts Q) :
    Q.Records o φ r x := by
  refine { h with right := ?_ }
  have hr := h.right
  rw [List.mem_append] at hr ⊢
  exact hr.imp hl.rivals hl.loose

theorem Runs.detects (hk : o.keep = .both) (hr : Runs o P es Q) (hv : P.Valid) (ha : Distinct as φ)
    (hu : Upcoming as (arrivals es)) (h : P.Knows as φ (arrivals es)) :
    ∃ rs, Q.conflicts = P.conflicts ++ rs ∧
      List.Forall₂ (Q.Records o φ) rs (clashes as (arrivals es)) := by
  induction hr with
  | nil P => exact ⟨[], by simp, .nil⟩
  | @cons P R Q e es hs hr ih =>
      have hlast : ∀ {r x}, R.Records o φ r x → Q.Records o φ r x := fun hrec =>
        hr.invariant (I := fun P => P.Records o φ _ _) (hs.valid hv) (fun _ hs h => h.lasts hs.lasts) hrec
      obtain ⟨rs, hrs, hall⟩ := ih (hs.valid hv) (hu.sublist (arrivals_sublist P.name e es))
        (hs.knows hv ha hu h)
      cases hd : e.declaration? with
      | none =>
          rw [arrivals_silent hd]
          exact ⟨rs, by rw [hrs, hs.silent hd], hall⟩
      | some d =>
          obtain ⟨c, n⟩ := d
          have hb : ⟨Forest.root, P.name, c, n⟩ ∈ arrivals ((P.name, e) :: es) := by
            rw [arrivals_declaration hd]
            exact List.mem_cons_self
          have hmeets := h.meets?_eq ha hb hv (hu.declared _ hb) rfl
          rw [arrivals_declaration hd]
          rcases hs.met hk hv hd with ⟨hnone, hc⟩ | ⟨key, d, hmem, hsome, hcase⟩
          · rw [hnone] at hmeets
            have hp := Option.map_eq_none_iff.mp hmeets.symm
            exact ⟨rs, by rw [hrs, hc], by simpa [clashes, hp] using hall⟩
          · rw [hsome] at hmeets
            obtain ⟨⟨k, a⟩, hp, heq⟩ := Option.map_eq_some_iff.mp hmeets.symm
            obtain ⟨rfl, hφ⟩ := Prod.mk.inj heq
            obtain ⟨hm, hka, hkb⟩ := mem_of_partner? hp
            obtain ⟨d', hd', hh, hcontent⟩ := h.content _ hb _ hkb a hm hka
            cases Outline.census_unique hv.nodup_outline hmem hd' (hφ.symm.trans hh.symm)
            rw [hcontent] at hcase
            rcases hcase with ⟨hcomp, hc⟩ | ⟨hcomp, hc, hright⟩
            · exact ⟨rs, by rw [hrs, hc], by simpa [clashes, hp, hcomp] using hall⟩
            · refine ⟨⟨k, d.handle, P.next, o.labels⟩ :: rs, ?_, ?_⟩
              · rw [hrs, hc, Draft.record, List.append_assoc]
                rfl
              · have hclash : clashes as (⟨Forest.root, P.name, c, n⟩ :: arrivals es) =
                    ⟨k, a, ⟨Forest.root, P.name, c, n⟩⟩ :: clashes as (arrivals es) := by
                  simp [clashes, hp, hcomp]
                rw [hclash]
                exact .cons (hlast ⟨rfl, hφ.symm, rfl, hright⟩) hall

end

/-- The output goes on with the declarations of a tree under new handles, one for each. -/
structure Output.Continues (O T : Outline) (copy : Handle → Handle) : Prop where
  grows : ∀ a ∈ T.census "", ∃ e ∈ O.census "", ({ a with handle := copy a.handle } : Entry).Grows e
  injective : ∀ a ∈ T.census "", ∀ a' ∈ T.census "", copy a.handle = copy a'.handle → a = a'

/-- A record gives the key of a clash, the output's copy of the earlier declaration and a copy of the
later one. -/
structure Output.Reports (out : Output) (labels : Labels) (copy : Handle → Handle) (r : Conflict)
    (x : Clash) : Prop where
  key : r.key = x.key
  left : r.left = copy x.left.handle
  labels : r.labels = labels
  right : ∃ m, out.forest.get r.right = .ok m ∧ m.kind = .plain x.right.content ∧
    m.notes = x.right.notes

section

variable {A B : Forest} {TA TB : Outline}

theorem distinct_copyOf (hA : A.Shows TA) (hd : A.DuplicateFree) :
    Distinct (TA.census "") (copyOf TA) :=
  ⟨fun _ ha _ ha' _ hk hk' => hA.eq_of_mem_keys hd ha ha' hk hk',
    fun _ ha _ ha' h => copyOf_injective hA.nodup ha ha' h⟩

theorem Copies.knows (hc : TA.conflictFree = true)
    (h : Copies o (copyOf TA) [] .tree {} [] [TA] .empty P) (bs : List Entry) :
    P.Knows (TA.census "") (copyOf TA) bs := by
  refine ⟨fun b _ key _ x => ?_, fun b _ key _ a ha _ => ?_⟩
  · rw [Draft.mem_recent_iff, h.mem_newest_first hc]
  · obtain ⟨e, he, hg, hc⟩ := exists_of_forall₂ (h.census_first hc) a ha
    exact ⟨e, he, hg.handle, hc⟩

theorem upcoming (hA : A.Shows TA) (hB : B.Shows TB) (hc : TB.conflictFree = true)
    (hd : B.DuplicateFree) (hpA : A.PlainlyNamed) (hpB : B.PlainlyNamed) :
    Upcoming (TA.census "") (arrivals (TB.script "")) := by
  rw [Outline.arrivals_script hB.sound hc]
  have bare {p : Entry → Prop} (hp : ∀ b ∈ TB.census "", p { b with handle := Forest.root }) :
      ∀ b ∈ (TB.census "").map fun b => { b with handle := Forest.root }, p b := by
    simpa using hp
  refine ⟨?_, bare fun b hb => ?_, bare fun b hb => ?_, fun a ha => hA.isPlain_outer hpA ha⟩
  · rw [List.pairwise_map]
    exact hB.pairwise_apart hd
  · have hdecl := Outline.isDeclaration_of_census hb
    exact hdecl
  · have hplain := hB.isPlain_outer hpB hb
    exact hplain

theorem partner?_bare (as : List Entry) (b : Entry) :
    ({ b with handle := Forest.root } : Entry).partner? as = b.partner? as := rfl

theorem clashes_bare (as bs : List Entry) :
    clashes as (bs.map fun b => { b with handle := Forest.root }) =
      (clashes as bs).map fun x => { x with right := { x.right with handle := Forest.root } } := by
  rw [clashes, clashes, List.filterMap_map, List.map_filterMap]
  apply List.filterMap_congr
  intro b _
  rw [Function.comp_apply, partner?_bare]
  cases b.partner? as with
  | none => rfl
  | some p => by_cases hp : p.2.content.compatible b.content = true <;> simp [hp]

theorem exists_detection (labels : Labels) (hA : A.Shows TA) (hB : B.Shows TB)
    (hcA : TA.conflictFree = true) (hcB : TB.conflictFree = true) (hdA : A.DuplicateFree)
    (hdB : B.DuplicateFree) (hpA : A.PlainlyNamed) (hpB : B.PlainlyNamed) :
    ∃ out O, mergeAll ⟨labels, .both⟩ [A, B] = .ok out ∧ out.forest.outline Forest.root = .ok O ∧
      Output.Continues O TA (copyOf TA) ∧
      List.Forall₂ (out.Reports labels (copyOf TA)) out.conflicts
        (clashes (TA.census "") (TB.census "")) := by
  obtain ⟨P, hP⟩ := exists_first_copy ⟨labels, .both⟩ hA.sound hcA hA.nodup (hA.pairwise_apart hdA)
  have hv : P.Valid := hP.runs.valid Draft.valid_empty
  obtain ⟨Q, hr, hvQ, -⟩ := exists_runs (o := ⟨labels, .both⟩) (by simp) hcB hv
  have hempty : Draft.empty.name = "" := rfl
  rw [name_eq hP.entered, hempty] at hr
  have hreadings : readings [A, B] = .ok [TA, TB] := by
    simp [readings, hA.outline, hB.outline, bind, Except.bind, pure, Except.pure]
  have hrun : Runs ⟨labels, .both⟩ .empty ([TA, TB].flatMap (Outline.script "")) Q := by
    have hboth := hP.runs.append hr
    rw [List.flatMap_singleton, hempty] at hboth
    simpa using hboth
  obtain ⟨out, O, h⟩ := hrun.exists_outcome hreadings (by simp [hcA, hcB])
  refine ⟨out, O, h.merged, h.outline, ⟨fun a ha => ?_, (distinct_copyOf hA hdA).handles⟩, ?_⟩
  · obtain ⟨e, he, hg, -⟩ := exists_of_forall₂ (hP.census_first hcA) a ha
    obtain ⟨e', he', hg'⟩ := hr.grows hv e he
    exact ⟨e', h.coalesces.census "" ▸ he', hg.trans hg'⟩
  · obtain ⟨rs, hrs, hall⟩ := hr.detects rfl hv (distinct_copyOf hA hdA)
      (upcoming hA hB hcB hdB hpA hpB) (hP.knows hcA _)
    rw [h.conflicts, hrs, hP.conflicts]
    rw [Outline.arrivals_script hB.sound hcB, clashes_bare, List.forall₂_map_right_iff] at hall
    exact hall.imp fun r x hx => ⟨hx.key, hx.left, hx.labels, h.found hx.right⟩

end

/-- The conflicts of two trees without duplicates are the declarations of the second one that do not
agree with their partners in the first one, each recorded once and in document order. -/
theorem conflicts_are_clashes (labels : Labels) (A B : Forest) (hwA : A.WellFormed)
    (hwB : B.WellFormed) (hcA : A.ConflictFree) (hcB : B.ConflictFree) (hdA : A.DuplicateFree)
    (hdB : B.DuplicateFree) (hpA : A.PlainlyNamed) (hpB : B.PlainlyNamed) :
    ∃ TA TB out O, A.outline Forest.root = .ok TA ∧ B.outline Forest.root = .ok TB ∧
      mergeAll ⟨labels, .both⟩ [A, B] = .ok out ∧ out.forest.outline Forest.root = .ok O ∧
      Output.Continues O TA (copyOf TA) ∧
      List.Forall₂ (out.Reports labels (copyOf TA)) out.conflicts
        (clashes (TA.census "") (TB.census "")) := by
  obtain ⟨TA, hA⟩ := hwA.exists_shows
  obtain ⟨TB, hB⟩ := hwB.exists_shows
  obtain ⟨out, O, h⟩ := exists_detection labels hA hB (hA.conflictFree hcA) (hB.conflictFree hcB)
    hdA hdB hpA hpB
  exact ⟨TA, TB, out, O, hA.outline, hB.outline, h⟩

def sampleClass : Forest :=
  ⟨#[{ kind := .plain .tree, children := [1] },
    { kind := .plain (.scope (.classNamed "::A" none)), parent := some Forest.root, children := [2, 3] },
    { kind := .plain (.leaf (.method { name := "z", params := [⟨.required, "p", none, []⟩] })),
      parent := some 1 },
    { kind := .plain (.leaf (.attribute { kind := .reader, names := ["w", "y"] })), parent := some 1 }]⟩

theorem conflicts_are_clashes_sample : ∃ TA TB out O, Forest.sampleModule.outline Forest.root = .ok TA ∧
    sampleClass.outline Forest.root = .ok TB ∧ mergeAll {} [.sampleModule, sampleClass] = .ok out ∧
      out.forest.outline Forest.root = .ok O ∧ Output.Continues O TA (copyOf TA) ∧
      List.Forall₂ (out.Reports ⟨"left", "right"⟩ (copyOf TA)) out.conflicts
        (clashes (TA.census "") (TB.census "")) :=
  conflicts_are_clashes ⟨"left", "right"⟩ .sampleModule sampleClass (by decide) (by decide) (by decide)
    (by decide) (by decide) (by decide) (by decide) (by decide)

end Merge

end Reconcile
