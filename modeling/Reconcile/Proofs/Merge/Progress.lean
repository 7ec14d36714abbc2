import Reconcile.Proofs.Merge.Valid

namespace Reconcile.Merge

open Outline (plug)

def Event.isCarry : Event → Bool
  | .carry _ => true
  | _ => false

namespace Draft

variable {P : Draft} {path : List Frame} {h : Handle} {c : Content} {m : Notes} {cs : List Outline}

theorem Standing.exists_current (hv : P.Standing) : ∃ path c m cs,
    P.outline = plug path (.node P.current c m cs) ∧ c.isContainer = true ∧
      c.qualify (pathName "" path) = P.name ∧
      ((∃ s, c = .scope s) ∨ c = .tree ∧ path = [] ∧ P.name = "") := by
  obtain ⟨hroot, hcontent⟩ := hv.root
  cases hen : P.entered with
  | nil =>
      cases ho : P.outline with
      | node h c n cs =>
          rw [ho] at hroot hcontent
          cases hroot
          cases hcontent
          exact ⟨[], .tree, n, cs, by simp [current, hen, plug, Forest.root], rfl, by simp [name, hen]; rfl,
            Or.inr ⟨rfl, rfl, by simp [name, hen]⟩⟩
      | conflict => rw [ho] at hcontent; cases hcontent
  | cons x rest =>
      obtain ⟨e, he, hh, s, hs, hq⟩ := hv.entered x (by simp [hen])
      obtain ⟨path, cs, hp, hname, -⟩ := Outline.exists_path_of_mem_census he
      refine ⟨path, .scope s, e.notes, cs, ?_, rfl, ?_, Or.inl ⟨s, rfl⟩⟩
      · rw [hp, hs, hh]; simp [current, hen]
      · rw [hname]; simp [name, hen, ← hq]; rfl

theorem Standing.current_cases (hv : P.Standing) (hp : P.outline = plug path (.node P.current c m cs)) :
    (∃ s, c = .scope s) ∨ c = .tree ∧ path = [] ∧ P.name = "" := by
  obtain ⟨path', c', m', cs', hp', -, -, h⟩ := hv.exists_current
  have hx : .node P.current c m cs ∈ P.outline.subtrees := by
    rw [hp]
    exact Outline.subtrees_plug path (Outline.mem_subtrees_self _)
  have hx' : .node P.current c' m' cs' ∈ P.outline.subtrees := by
    rw [hp']
    exact Outline.subtrees_plug path' (Outline.mem_subtrees_self _)
  have heq := Outline.eq_of_handle hv.nodup_outline hx hx' rfl
  cases heq
  rcases h with hs | ⟨htree, rfl, hname⟩
  · exact Or.inl hs
  · refine Or.inr ⟨htree, ?_, hname⟩
    rw [hp', plug] at hp
    exact Outline.eq_nil_of_plug hp.symm

theorem exists_of_isScopeAt (hs : P.isScopeAt h = true) :
    ∃ e ∈ P.census, e.handle = h ∧ ∃ s, e.content = .scope s := by
  rw [isScopeAt, List.any_eq_true] at hs
  obtain ⟨e, he, hs⟩ := hs
  rw [Bool.and_eq_true, decide_eq_true_eq] at hs
  refine ⟨e, he, hs.1, ?_⟩
  cases hc : e.content with
  | scope s => exact ⟨s, rfl⟩
  | tree | visibilityGroup | group | leaf => simp [hc, Content.scope?] at hs

theorem exists_scope {key : String} (hu : P.scopeUnder? key = some h) :
    ∃ path s m cs, P.outline = plug path (.node h (.scope s) m cs) := by
  obtain ⟨e, he, rfl, s, hs⟩ := exists_of_isScopeAt (List.find?_some hu)
  obtain ⟨path, cs, hp, -, -⟩ := Outline.exists_path_of_mem_census he
  exact ⟨path, s, e.notes, cs, by rw [hp, hs]⟩

theorem mem_of_previous {keys : List String} {key : String}
    (hu : P.previous? keys = some (key, h)) : key ∈ keys ∧ (key, h) ∈ P.index.newest := by
  obtain ⟨k, hk, he⟩ := List.exists_of_findSome?_eq_some hu
  cases hl : P.index.last? k with
  | none => simp [hl] at he
  | some h' =>
      simp only [hl, Option.map_some, Option.some.injEq, Prod.mk.injEq] at he
      obtain ⟨rfl, rfl⟩ := he
      exact ⟨hk, mem_recent (List.mem_of_head? hl)⟩

theorem Valid.mem_keys (hv : P.Valid) (path : List Frame) {keys : List String} {key : String}
    (hu : P.previous? keys = some (key, h)) (hp : P.outline = plug path (.node h c m cs)) :
    c.isDeclaration = true ∧ key ∈ keys ∧ key ∈ c.keys (pathName "" path) := by
  obtain ⟨hkey, hm⟩ := mem_of_previous hu
  obtain ⟨e, he, rfl, hk⟩ := mem_index hv hm
  obtain ⟨path', cs', hp', -, hd⟩ := Outline.exists_path_of_mem_census he
  have hx : .node e.handle c m cs ∈ P.outline.subtrees := by
    rw [hp]
    exact Outline.subtrees_plug path (Outline.mem_subtrees_self _)
  have hy : .node e.handle e.content e.notes cs' ∈ P.outline.subtrees := by
    rw [hp']
    exact Outline.subtrees_plug path' (Outline.mem_subtrees_self _)
  cases Outline.eq_of_handle hv.nodup_outline hx hy rfl
  have hmem : ⟨e.handle, pathName "" path, e.content, e.notes⟩ ∈ P.census := by
    rw [census, hp]
    exact Outline.mem_census_plug "" path hd
  have heq := Outline.census_unique hv.nodup_outline he hmem rfl
  rw [Entry.keys, heq] at hk
  exact ⟨hd, hkey, hk⟩

theorem Standing.exists_previous (hv : P.Standing) {keys : List String} {key : String}
    (hu : P.previous? keys = some (key, h)) : ∃ path c m cs,
      P.outline = plug path (.node h c m cs) ∧ c.isDeclaration = true := by
  obtain ⟨e, he, hh⟩ := hv.indexed _ (mem_of_previous hu).2
  obtain ⟨path, cs, hp, -, hd⟩ := Outline.exists_path_of_mem_census he
  rw [hh] at hp
  exact ⟨path, e.content, e.notes, cs, hp, hd⟩

theorem Standing.container {before after : List Outline} {x : Outline} (hv : P.Standing)
    (hp : P.outline = plug path (.node h c m (before ++ x :: after))) : c.isContainer = true := by
  have hs := hv.sound
  rw [hp] at hs
  exact @Outline.admits_of_sound path x (.node h c m before after) hs

theorem Standing.exists_frame (hv : P.Standing) (hp : P.outline = plug path (.node h c m cs))
    (hd : c.isDeclaration = true) : ∃ fr rest, path = fr :: rest := by
  cases path with
  | nil =>
      have hc := hv.root.2
      rw [hp] at hc
      cases hc
      cases hd
  | cons fr rest => exact ⟨fr, rest, rfl⟩

end Draft

theorem exists_left_of_onSide {path : List Frame} (h : Draft.onSide path = true) :
    ∃ q old n r rest, path = .left q .declarations old n r :: rest := by
  cases path with
  | nil => cases h
  | cons fr rest =>
      cases fr with
      | node => cases h
      | left q form old n r =>
          cases form with
          | declarations => exact ⟨q, old, n, r, rest, rfl⟩
          | headers => cases h

theorem trees_of_sound {path : List Frame} {q b : Handle} {old : Labels} {nq nb : Notes}
    {d : Content} {before after : List Outline} {x r : Outline}
    (hs : (plug (.node b d nb before after :: .left q .declarations old nq r :: path) x).sound = true) :
    d = .tree ∧ ∃ r' n rs, r = .node r' .tree n rs := by
  have ha : (Frame.left q .declarations old nq r).admits (.node b d nb (before ++ x :: after)) = true :=
    Outline.admits_of_sound hs
  rw [Frame.admits, Bool.and_eq_true] at ha
  obtain ⟨b', n', bs, hb⟩ := ConflictForm.exists_tree ha.1
  cases hb
  exact ⟨rfl, ConflictForm.exists_tree ha.2⟩

theorem headers_of_sound {path : List Frame} {q h : Handle} {form : ConflictForm} {old : Labels}
    {nq m : Notes} {c : Content} {cs : List Outline} {r root : Outline}
    (hroot : root.content? = some .tree)
    (hp : root = plug (.left q form old nq r :: path) (.node h c m cs))
    (hs : (plug (.left q form old nq r :: path) (.node h c m cs)).sound = true)
    (hd : c.isDeclaration = true) :
    form = .headers ∧ ∃ q' d nq' before after rest, path = .node q' d nq' before after :: rest := by
  have ha := Outline.admits_of_sound hs
  rw [Frame.admits, Bool.and_eq_true] at ha
  cases form with
  | declarations =>
      obtain ⟨r', n', rs, hr⟩ := ConflictForm.exists_tree ha.1
      cases hr
      cases hd
  | headers =>
      refine ⟨rfl, ?_⟩
      cases path with
      | nil => rw [hp] at hroot; cases hroot
      | cons fr rest =>
          cases fr with
          | node q' d nq' before after => exact ⟨q', d, nq', before, after, rest, rfl⟩
          | left q' form' old' nq' r' =>
              have hb : (Frame.left q' form' old' nq' r').admits
                  (.conflict q .headers old nq (.node h c m cs) r) = true :=
                Outline.admits_of_sound hs
              cases hb

open Draft

variable {o : Options} {P : Draft}

theorem exists_step_enter (hv : P.Standing) (hk : o.keep ≠ .right) (s : Scope) (n : Notes) :
    ∃ Q, Step o P (.enter s n) Q := by
  cases hu : P.scopeUnder? (s.qualify P.name) with
  | none =>
      obtain ⟨path, c, m, cs, hp, hc, hn, -⟩ := hv.exists_current
      exact ⟨_, .newScope s n path c m cs hu hp hc hn⟩
  | some h =>
      obtain ⟨path, t, m, cs, hp⟩ := exists_scope hu
      by_cases hts : t = s
      · subst hts
        exact ⟨_, .knownScope t n path h m cs hu hp⟩
      · cases hkeep : o.keep with
        | left => exact ⟨_, .keptHeader s n path h t m cs hu hp hts hkeep⟩
        | right => exact absurd hkeep hk
        | both =>
            obtain ⟨fr, rest, rfl⟩ := hv.exists_frame hp rfl
            cases fr with
            | node q c nq before after =>
                exact ⟨_, .contestedHeader s n rest q c nq before after h t m cs hu hp hts hkeep⟩
            | left q form old nq r =>
                have ha := Outline.admits_of_sound (hp ▸ hv.sound)
                cases form with
                | declarations => cases ha
                | headers =>
                    exact ⟨_, .repeatedHeader s n rest q old nq r h t m cs hu hp hts hkeep⟩

theorem exists_step_declare (hv : P.Standing) (hk : o.keep ≠ .right) (l : Leaf) (n : Notes) :
    ∃ Q, Step o P (.declare l n) Q := by
  cases hu : P.previous? (l.keys P.name) with
  | none =>
      obtain ⟨path, c, m, cs, hp, hc, hn, -⟩ := hv.exists_current
      exact ⟨_, .newLeaf l n path c m cs hu hp hc hn⟩
  | some x =>
      obtain ⟨key, h⟩ := x
      obtain ⟨path, c, m, cs, hp, hd⟩ := hv.exists_previous hu
      cases hl : c.compatible (.leaf l) with
      | true =>
          cases c with
          | leaf l' => exact ⟨_, .unitedLeaf l n path key h l' m cs hu hp hl⟩
          | tree | scope | visibilityGroup | group => cases hl
      | false =>
          cases hkeep : o.keep with
          | left => exact ⟨_, .keptLeaf l n path key h c m cs hu hp hl hkeep⟩
          | right => exact absurd hkeep hk
          | both =>
              obtain ⟨fr, rest, rfl⟩ := hv.exists_frame hp hd
              have hs := hv.sound
              rw [hp] at hs
              have ha := Outline.admits_of_sound hs
              cases fr with
              | node q d nq before after =>
                  cases hside : onSide rest with
                  | false =>
                      exact ⟨_, .opposedLeaf l n rest key q d nq before after h c m cs hu hp hside hl
                        hkeep⟩
                  | true =>
                      obtain ⟨q', old, nq', r, rest', rfl⟩ := exists_left_of_onSide hside
                      obtain ⟨rfl, r', nr, rs, rfl⟩ := trees_of_sound hs
                      exact ⟨_, .joinedLeaf l n rest' key q' old nq' q nq before after h c m cs r' nr
                        rs hu hp hl hkeep⟩
              | left q form old nq r =>
                  obtain ⟨rfl, q', d, nq', before, after, rest', rfl⟩ := headers_of_sound hv.root.2 hp hs hd
                  exact ⟨_, .opposedHeaders l n rest' key q' d nq' before after q old nq h c m cs r hu
                    hp hl hkeep⟩

/-- Every event but a carried conflict has an effect. -/
theorem exists_step (hv : P.Standing) (hk : o.keep ≠ .right) {e : Event} (he : e.isCarry = false) :
    ∃ Q, Step o P e Q := by
  cases e with
  | enter s n => exact exists_step_enter hv hk s n
  | leave => exact ⟨_, .left⟩
  | declare l n => exact exists_step_declare hv hk l n
  | remark comments =>
      obtain ⟨path, c, m, cs, hp, -, hn, -⟩ := hv.exists_current
      exact ⟨_, .remarked comments path c m cs hp hn⟩
  | carry => cases he

end Reconcile.Merge
