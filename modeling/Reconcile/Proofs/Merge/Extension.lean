import Mathlib.Data.List.Infix
import Reconcile.Proofs.Merge.Neutrality
import Reconcile.Proofs.Merge.Resolution

namespace Reconcile

theorem prefix_union {α : Type} [DecidableEq α] (xs ys : List α) : xs <+: union xs ys := by
  induction ys generalizing xs with
  | nil => exact List.prefix_rfl
  | cons y ys ih =>
      rw [union]
      split
      · exact ih xs
      · exact (List.prefix_append xs [y]).trans (ih (xs ++ [y]))

/-- The second leaf is the first one, perhaps with further signatures or names of values at the end. -/
inductive Leaf.GrowsInto : Leaf → Leaf → Prop
  | same (l : Leaf) : GrowsInto l l
  | ofMethod (m : Method) {signatures : List Signature} (h : m.signatures <+: signatures) :
      GrowsInto (.method m) (.method { m with signatures })
  | ofAttribute (a : Attribute) {signatures : List Signature} (h : a.signatures <+: signatures) :
      GrowsInto (.attribute a) (.attribute { a with signatures })
  | ofEnumeration {names more : List String} (h : names <+: more) :
      GrowsInto (.enumeration names) (.enumeration more)

/-- The second kind is the first one, unless they are leaves of which the first grows into the second. -/
inductive Kind.GrowsInto : Kind → Kind → Prop
  | same (k : Kind) : GrowsInto k k
  | ofLeaf {l l' : Leaf} (h : l.GrowsInto l') : GrowsInto (.plain (.leaf l)) (.plain (.leaf l'))

/-- The second node is the first one after some time in which things were only added to it. -/
structure Node.GrowsInto (n m : Node) : Prop where
  parent : m.parent = n.parent
  location : m.notes.location = n.notes.location
  children : n.children <+: m.children
  comments : n.notes.comments <+: m.notes.comments
  kind : n.kind.GrowsInto m.kind

/-- Every node is still there under its handle. -/
def Forest.GrowsInto (f g : Forest) : Prop :=
  ∀ h n, f.look h = some n → ∃ m, g.look h = some m ∧ n.GrowsInto m

namespace Leaf.GrowsInto

variable {l l' l'' : Leaf}

theorem trans (h : l.GrowsInto l') (h' : l'.GrowsInto l'') : l.GrowsInto l'' := by
  cases h with
  | same => exact h'
  | ofMethod m hm =>
      cases h' with
      | same => exact .ofMethod m hm
      | ofMethod _ hm' => exact .ofMethod m (hm.trans hm')
  | ofAttribute a ha =>
      cases h' with
      | same => exact .ofAttribute a ha
      | ofAttribute _ ha' => exact .ofAttribute a (ha.trans ha')
  | ofEnumeration hn =>
      cases h' with
      | same => exact .ofEnumeration hn
      | ofEnumeration hn' => exact .ofEnumeration (hn.trans hn')

theorem absorb (l l' : Leaf) : l.GrowsInto (l.absorb l') := by
  unfold Leaf.absorb
  split
  · exact .ofMethod _ (prefix_union _ _)
  · exact .ofAttribute _ (prefix_union _ _)
  · exact .ofEnumeration (prefix_union _ _)
  · exact .same _

end Leaf.GrowsInto

namespace Kind.GrowsInto

variable {k k' k'' : Kind}

theorem trans (h : k.GrowsInto k') (h' : k'.GrowsInto k'') : k.GrowsInto k'' := by
  cases h with
  | same => exact h'
  | ofLeaf hl =>
      cases h' with
      | same => exact .ofLeaf hl
      | ofLeaf hl' => exact .ofLeaf (hl.trans hl')

theorem absorb (k k' : Kind) : k.GrowsInto (k.absorb k') := by
  unfold Kind.absorb
  split
  · unfold Content.absorb
    split
    · exact .ofLeaf (.absorb _ _)
    · exact .same _
  · exact .same _

end Kind.GrowsInto

namespace Node.GrowsInto

variable {n m k : Node}

theorem refl (n : Node) : n.GrowsInto n :=
  ⟨rfl, rfl, List.prefix_rfl, List.prefix_rfl, .same _⟩

theorem trans (h : n.GrowsInto m) (h' : m.GrowsInto k) : n.GrowsInto k where
  parent := h'.parent.trans h.parent
  location := h'.location.trans h.location
  children := h.children.trans h'.children
  comments := h.comments.trans h'.comments
  kind := h.kind.trans h'.kind

end Node.GrowsInto

namespace Forest

variable {f f' f₁ f₂ : Forest} {h p : Handle}

theorem look_of_get {n : Node} (hn : f.get h = .ok n) : f.look h = some n := by
  unfold get at hn
  split at hn
  · next m hm =>
      cases hn
      exact hm
  · cases hn

namespace GrowsInto

theorem refl (f : Forest) : f.GrowsInto f := fun _ n hn => ⟨n, hn, .refl n⟩

theorem trans (hf : f.GrowsInto f₁) (hf' : f₁.GrowsInto f₂) : f.GrowsInto f₂ := by
  intro h n hn
  obtain ⟨m, hm, hnm⟩ := hf h n hn
  obtain ⟨k, hk, hmk⟩ := hf' h m hm
  exact ⟨k, hk, hnm.trans hmk⟩

theorem update {g : Node → Node} (hg : ∀ n : Node, n.GrowsInto (g n)) (he : f.update h g = .ok f') :
    f.GrowsInto f' := by
  obtain ⟨n, hn, -⟩ := exists_of_bind_eq_ok he
  obtain ⟨f₁, he₁, -, hlook⟩ := update_spec (look_of_get hn) g
  cases he.symm.trans he₁
  intro k m hm
  rw [hlook]
  by_cases hk : k = h
  · subst hk
    cases (look_of_get hn).symm.trans hm
    exact ⟨g n, Function.update_self .., hg n⟩
  · exact ⟨m, (Function.update_of_ne hk ..).trans hm, .refl m⟩

theorem append {n : Node} (hn : f.look p = some n) (hc : n.kind.isContainer = true)
    (content : Content) (notes : Notes) :
    ∃ f', f.append p content notes = .ok (f', f.size) ∧ f.GrowsInto f' := by
  obtain ⟨f', he, -, hlook⟩ := append_spec hn hc content notes
  refine ⟨f', he, fun k m hm => ?_⟩
  rw [hlook, Function.update_of_ne (Nat.ne_of_lt (look_lt hm))]
  by_cases hk : k = p
  · subst hk
    cases hn.symm.trans hm
    exact ⟨_, Function.update_self .., rfl, rfl, List.prefix_append .., List.prefix_rfl, .same _⟩
  · exact ⟨m, (Function.update_of_ne hk ..).trans hm, .refl m⟩

end GrowsInto

theorem addComments_grows {comments : List String} (he : f.addComments h comments = .ok f') :
    f.GrowsInto f' :=
  .update (g := fun n => { n with notes := n.notes.addComments comments })
    (fun _ => ⟨rfl, rfl, List.prefix_rfl, prefix_union .., .same _⟩) he

theorem absorb_grows {kind : Kind} {comments : List String} (he : f.absorb h kind comments = .ok f') :
    f.GrowsInto f' :=
  .update (g := fun n => { n with
      kind := n.kind.absorb kind
      notes := n.notes.addComments comments })
    (fun _ => ⟨rfl, rfl, List.prefix_rfl, prefix_union .., .absorb ..⟩) he

end Forest

namespace Merge

open Outline (plug)

variable {o : Options} {s s' : State} {P Q : Draft} {e : Event}

namespace State

theorem place_grows {n : Node} (hn : s.forest.look s.current = some n)
    (hc : n.kind.isContainer = true) {content : Content} {notes : Notes} {keys : List String}
    {r : State × Handle} (he : s.place content notes keys = .ok r) :
    s.forest.GrowsInto r.1.forest := by
  obtain ⟨f', hf', hgrows⟩ := Forest.GrowsInto.append hn hc content notes
  simp only [place, hf', bind, Except.bind] at he
  cases he
  exact hgrows

theorem placeScope_grows (hk : o.keep = .left) {n : Node} (hn : s.forest.look s.current = some n)
    (hc : n.kind.isContainer = true) {scope : Scope} {notes : Notes} {r : State × Handle}
    (he : s.placeScope o scope notes = .ok r) : s.forest.GrowsInto r.1.forest := by
  obtain ⟨name, -, he⟩ := exists_of_bind_eq_ok he
  obtain ⟨under, -, he⟩ := exists_of_bind_eq_ok he
  cases under with
  | none => exact place_grows hn hc he
  | some previous =>
      obtain ⟨kind, -, he⟩ := exists_of_bind_eq_ok he
      split at he
      · obtain ⟨f', hf', he⟩ := exists_of_bind_eq_ok he
        cases he
        exact Forest.addComments_grows hf'
      · rw [hk] at he
        cases he
        exact .refl _

theorem placeLeaf_grows (hk : o.keep = .left) {n : Node} (hn : s.forest.look s.current = some n)
    (hc : n.kind.isContainer = true) {leaf : Leaf} {notes : Notes}
    (he : s.placeLeaf o leaf notes = .ok s') : s.forest.GrowsInto s'.forest := by
  obtain ⟨name, -, he⟩ := exists_of_bind_eq_ok he
  cases hprevious : s.previous? (leaf.keys name) with
  | none =>
      simp only [hprevious] at he
      obtain ⟨r, hr, he⟩ := exists_of_bind_eq_ok he
      cases he
      exact place_grows hn hc hr
  | some found =>
      obtain ⟨key, previous⟩ := found
      simp only [hprevious] at he
      obtain ⟨kind, -, he⟩ := exists_of_bind_eq_ok he
      split at he
      · obtain ⟨f', hf', he⟩ := exists_of_bind_eq_ok he
        cases he
        exact Forest.absorb_grows hf'
      · rw [hk] at he
        cases he
        exact .refl _

end State

/-- One event of a tree without conflicts lets the output grow. -/
theorem Step.growsInto (hs : Step o P e Q) (hk : o.keep = .left) (hd : s.Depicts P) (hv : P.Standing)
    (he : s.step o e = .ok s') : s.forest.GrowsInto s'.forest := by
  obtain ⟨path, c, m, cs, hp, hroom, -⟩ := hv.exists_current
  have hn := ((Outline.holds_node ..).mp (hd.part hv hp).1).1
  rw [← hd.current] at hn
  cases e with
  | enter scope notes =>
      obtain ⟨r, hr, he⟩ := exists_of_bind_eq_ok he
      cases he
      exact State.placeScope_grows hk hn hroom hr
  | leave =>
      cases he
      exact .refl _
  | declare leaf notes => exact State.placeLeaf_grows hk hn hroom he
  | remark comments =>
      obtain ⟨f', hf', he⟩ := exists_of_bind_eq_ok he
      cases he
      exact Forest.addComments_grows hf'
  | carry => cases hs

theorem Runs.growsInto {es : List (String × Event)} (hr : Runs o P es Q) (hk : o.keep = .left)
    (hd : s.Depicts P) (hv : P.Valid) (he : s.run o (es.map (·.2)) = .ok s') :
    s.forest.GrowsInto s'.forest := by
  induction hr generalizing s with
  | nil =>
      cases he
      exact .refl _
  | cons hs _ ih =>
      obtain ⟨s₁, he₁, hd₁⟩ := hs.depicts hd hv.standing
      rw [State.run, List.map_cons, List.foldlM_cons, he₁] at he
      exact (hs.growsInto hk hd hv.standing he₁).trans (ih hd₁ (hs.valid hv) he)

theorem Outcome.exists_state {trees : List Forest} {os : List Outline} {out : Output} {O : Outline}
    (h : Outcome o trees os Q out O) (hk : o.keep = .left) :
    ∃ s, trees.foldlM (State.merge o) {} = .ok s ∧ s.Depicts Q ∧ out.forest = s.forest := by
  obtain ⟨s, hs, hd⟩ := h.runs.depicts State.Depicts.empty Draft.valid_empty
  rw [map_snd_scripts, ← foldlM_merge h.readings] at hs
  have hplain : Q.outline.conflictFree = true :=
    h.runs.invariant (I := fun P => P.outline.conflictFree = true) Draft.valid_empty
      (fun _ hs => hs.conflictFree hk) (by simp [Draft.empty])
  have hshows : s.forest.Shows Q.outline :=
    ⟨hd.outline, h.valid.nodup_outline, h.valid.sound, h.valid.root.1, h.valid.root.2⟩
  have hmerged := h.merged
  simp only [mergeAll, hs, hshows.coalesce_of_spaced (Outline.spaced_of_conflictFree hplain), bind,
    Except.bind] at hmerged
  cases hmerged
  exact ⟨s, hs, hd, rfl⟩

/-- Where the left version is kept, a further tree lets the output grow. Every node of it stays under its
handle, with the parent and the location that it has; children, comments, signatures and names of
enumeration values may be added after those that are there. -/
theorem left_extends (labels : Labels) (trees : List Forest) (t : Forest)
    (hc : ∀ x ∈ trees, x.ConflictFree) (ht : t.ConflictFree) :
    ∃ out out', mergeAll ⟨labels, .left⟩ trees = .ok out ∧
      mergeAll ⟨labels, .left⟩ (trees ++ [t]) = .ok out' ∧
      ∀ h n, out.forest.look h = some n →
        ∃ m, out'.forest.look h = some m ∧ n.GrowsInto m := by
  have hc' : ∀ x ∈ trees ++ [t], x.ConflictFree := by
    rw [List.forall_mem_append, List.forall_mem_singleton]
    exact ⟨hc, ht⟩
  obtain ⟨os, Q, out, O, h⟩ := @exists_outcome ⟨labels, .left⟩ trees (by simp) hc
  obtain ⟨os', Q', out', O', h'⟩ := @exists_outcome ⟨labels, .left⟩ (trees ++ [t]) (by simp) hc'
  refine ⟨out, out', h.merged, h'.merged, ?_⟩
  obtain ⟨s, hs, hd, hout⟩ := h.exists_state rfl
  obtain ⟨s', hs', -, hout'⟩ := h'.exists_state rfl
  obtain ⟨x, hx, hfree⟩ := ht
  obtain ⟨R, hr, -⟩ := exists_runs (o := ⟨labels, .left⟩) (by simp) hfree h.valid
  have hlast : s.run ⟨labels, .left⟩ ((x.script Q.name).map (·.2)) = .ok s' := by
    rw [List.foldlM_append, hs] at hs'
    obtain ⟨s₁, hs₁, he⟩ := exists_of_bind_eq_ok ((List.foldlM_cons ..).symm.trans hs')
    cases he
    rw [State.merge, hx] at hs₁
    rw [Outline.map_snd_script]
    exact hs₁
  rw [hout, hout']
  exact hr.growsInto rfl hd h.valid hlast

theorem left_extends_enumerations :
    let tree (names : List String) (value : String) : Forest :=
      ⟨#[{ kind := .plain .tree, children := [1, 2] },
        { kind := .plain (.leaf (.enumeration names)), parent := some Forest.root },
        { kind := .plain (.leaf (.constant "A" value)), parent := some Forest.root }]⟩
    (∀ x ∈ [tree ["Red"] "1"], x.ConflictFree) ∧ (tree ["Blue"] "2").ConflictFree ∧
      ∃ out out', mergeAll ⟨⟨"a", "b"⟩, .left⟩ [tree ["Red"] "1"] = .ok out ∧
        mergeAll ⟨⟨"a", "b"⟩, .left⟩ ([tree ["Red"] "1"] ++ [tree ["Blue"] "2"]) = .ok out' ∧
        ∀ h n, out.forest.look h = some n → ∃ m, out'.forest.look h = some m ∧ n.GrowsInto m := by
  intro tree
  have hfree (names : List String) (value : String) : (tree names value).ConflictFree := ⟨_, rfl, rfl⟩
  have htrees : ∀ x ∈ [tree ["Red"] "1"], x.ConflictFree := List.forall_mem_singleton.mpr (hfree _ _)
  exact ⟨htrees, hfree _ _, left_extends ⟨"a", "b"⟩ _ _ htrees (hfree _ _)⟩

end Merge

end Reconcile
