import Reconcile.Proofs.Forest.Contest
import Reconcile.Proofs.Merge.Valid

namespace Reconcile.Merge

open Outline (plug)

namespace Edit

variable {labels : Labels} {k : Handle} {adds : Bool} {j : Nat} {x y : Outline}

theorem comments (h : Edit labels k adds j x y) : x.notes.comments ⊆ y.notes.comments := by
  cases h with
  | annotate | unite => exact subset_union _ _
  | grow | contest | join | oppose => exact List.Subset.refl _

theorem declared (h : Edit labels k adds j x y) : x.declared ⊆ y.declared := by
  cases h with
  | grow =>
      intro a ha
      simp only [Outline.declared_node, List.flatMap_append, List.mem_append] at ha ⊢
      exact ha.imp_right Or.inl
  | annotate | unite | contest | join =>
      simp only [Outline.declared_node, Outline.declared_conflict, List.flatMap_append,
        List.flatMap_cons, Content.isDeclaration]
      exact List.Subset.refl _
  | oppose =>
      simp only [Outline.declared_node, Outline.declared_conflict, List.flatMap_append,
        List.flatMap_cons, List.flatMap_nil, List.append_nil, List.nil_append,
        Content.isDeclaration, Bool.false_eq_true, if_false]
      exact List.Subset.refl _

theorem tidy (h : Edit labels k adds j x y) (hx : x.tidy = true) : y.tidy = true := by
  cases h with
  | grow h c n cs d m =>
      rw [Outline.tidy_node] at hx ⊢
      intro o ho
      rcases List.mem_append.mp ho with ho | ho
      · exact hx o ho
      · cases List.mem_singleton.mp ho
        simp
  | annotate | unite => simpa using hx
  | contest q c n before after h t m cs s m' =>
      refine @Outline.tidy_plug [.node q c n before after] (.node h (.scope t) m cs) _ hx fun hz => ?_
      rw [Outline.tidy_conflict]
      exact ⟨by simp [ConflictForm.rivals, Outline.isBare], hz⟩
  | join q old n left r m rs l m' =>
      rw [Outline.tidy_conflict] at hx ⊢
      refine ⟨?_, hx.2⟩
      intro o ho
      rcases List.mem_append.mp ho with ho | ho
      · exact hx.1 o ho
      · cases List.mem_singleton.mp ho
        rfl
  | oppose q c n before after x l m =>
      refine @Outline.tidy_plug [.node q c n before after] x _ hx fun hz => ?_
      simpa [ConflictForm.rivals, Outline.children, Outline.isBare] using hz

theorem opposes (h : Edit labels k adds j x y) {a b : Handle} (hx : x.Opposes a b) :
    y.Opposes a b := by
  cases h with
  | grow h c n cs d m =>
      rw [Outline.opposes_node] at hx ⊢
      obtain ⟨o, ho, hab⟩ := hx
      exact ⟨o, List.mem_append_left _ ho, hab⟩
  | annotate | unite => simpa using hx
  | contest q c n before after h t m cs s m' =>
      refine @Outline.opposes_plug [.node q c n before after] (.node h (.scope t) m cs) _ a b
        (fun _ h => h) (fun hz => ?_) hx
      rw [Outline.opposes_conflict]
      exact Or.inr (Or.inl hz)
  | join q old n left r m rs l m' =>
      rw [Outline.opposes_conflict, Outline.opposes_node] at hx ⊢
      rcases hx with ⟨ha, hb⟩ | hx | ⟨o, ho, hx⟩
      · refine Or.inl ⟨ha, ?_⟩
        rw [ConflictForm.rivals, Outline.children, List.map_append]
        exact List.mem_append_left _ hb
      · exact Or.inr (Or.inl hx)
      · exact Or.inr (Or.inr ⟨o, List.mem_append_left _ ho, hx⟩)
  | oppose q c n before after x l m =>
      refine @Outline.opposes_plug [.node q c n before after] x _ a b ?_ (fun hz => ?_) hx
      · simp [Content.isDeclaration]
      · rw [Outline.opposes_conflict, Outline.opposes_node]
        exact Or.inr (Or.inl ⟨x, by simp, hz⟩)

theorem rivals (h : Edit labels k adds j x y) : ∃ new, y.rivals.Perm (x.rivals ++ new) ∧
    new.map Outline.handle = if adds || j = 0 then [] else [k] := by
  cases h with
  | grow | annotate | unite => exact ⟨[], by simp, rfl⟩
  | contest q c n before after h t m cs s m' =>
      refine ⟨[.node k (.scope s) m' []], ?_, rfl⟩
      refine perm_plug Frame.rivals_fill [.node q c n before after] (x := .node h (.scope t) m cs) ?_
      simp only [Outline.rivals_conflict, ConflictForm.rivals, Outline.rivals_node, List.flatMap_nil,
        List.append_nil]
      exact List.perm_append_comm
  | join q old n left r m rs l m' =>
      refine ⟨[.node k (.leaf l) m' []], ?_, rfl⟩
      simp only [Outline.rivals_conflict, ConflictForm.rivals, Outline.children, Outline.rivals_node,
        List.flatMap_append, List.flatMap_cons, List.flatMap_nil, List.append_nil]
      rw [List.append_assoc, List.append_assoc]
      exact List.perm_append_comm.append_left _
  | oppose q c n before after x l m =>
      refine ⟨[.node k (.leaf l) m []], ?_, rfl⟩
      refine perm_plug Frame.rivals_fill [.node q c n before after] (x := x) ?_
      simp only [Outline.rivals_conflict, ConflictForm.rivals, Outline.children, Outline.rivals_node,
        List.flatMap_cons, List.flatMap_nil, List.append_nil]
      exact List.perm_append_comm

end Edit

/-- What a step leaves of a draft. -/
structure Draft.Lasts (P Q : Draft) : Prop where
  census : ∀ e ∈ P.census, ∃ e' ∈ Q.census, e.Grows e'
  comments : P.outline.notes.comments ⊆ Q.outline.notes.comments
  tidy : P.outline.tidy = true → Q.outline.tidy = true
  opposes : ∀ {a b}, P.outline.Opposes a b → Q.outline.Opposes a b
  contests : ∃ new kept records, Q.outline.rivals.Perm (P.outline.rivals ++ new) ∧
    Q.loose = P.loose ++ kept ∧ Q.conflicts = P.conflicts ++ records ∧
    (new ++ kept).map Outline.handle = records.map Conflict.right ∧
    (records = [] ∨ ∃ r, records = [r] ∧ r.right = P.next ∧ P.next < Q.next)
  next : P.next ≤ Q.next

namespace Draft

variable {P Q : Draft} {path : List Frame} {x y : Outline} {labels : Labels} {adds : Bool} {j : Nat}

theorem comments_plug (h : x.notes.comments ⊆ y.notes.comments) :
    (plug path x).notes.comments ⊆ (plug path y).notes.comments := by
  induction path generalizing x y with
  | nil => exact h
  | cons fr path ih =>
      refine ih ?_
      cases fr <;> exact List.Subset.refl _

theorem Lasts.refl {index : Index} {entered : List (Handle × String)} :
    P.Lasts { P with index := index, entered := entered } where
  census := fun e he => ⟨e, he, .refl e⟩
  comments := List.Subset.refl _
  tidy := fun h => h
  opposes := fun h => h
  contests := ⟨[], [], [], by simp, by simp, by simp, rfl, Or.inl rfl⟩
  next := Nat.le_refl _

theorem lasts_edit (hp : P.outline = plug path x) (he : Edit labels P.next adds j x y)
    (hcensus : ∀ e ∈ P.census, ∃ e' ∈ (plug path y).census "", e.Grows e')
    (index : Index) (entered : List (Handle × String)) (records : List Conflict)
    (hr : records.map Conflict.right = if adds || j = 0 then [] else [P.next]) :
    P.Lasts ⟨plug path y, P.loose, index, entered, P.conflicts ++ records, P.next + j⟩ where
  census := hcensus
  comments := by
    rw [hp]
    exact comments_plug he.comments
  tidy := by
    intro ht
    rw [hp] at ht
    exact Outline.tidy_plug ht he.tidy
  opposes := by
    intro a b ho
    rw [hp] at ho
    exact Outline.opposes_plug he.declared he.opposes ho
  contests := by
    obtain ⟨new, hnew, hh⟩ := he.rivals
    refine ⟨new, [], records, ?_, by simp, rfl, by simp [hh, hr], ?_⟩
    · rw [hp]
      exact perm_plug Frame.rivals_fill path hnew
    · split at hr
      · exact Or.inl (List.map_eq_nil_iff.mp hr)
      · next hj =>
          obtain ⟨r, hrec, hright⟩ := List.map_eq_singleton_iff.mp hr
          simp only [Bool.or_eq_true, decide_eq_true_eq, not_or] at hj
          exact Or.inr ⟨r, hrec, hright, Nat.lt_add_of_pos_right (Nat.pos_of_ne_zero hj.2)⟩
  next := Nat.le_add_right _ _

theorem Lasts.edited (labels : Labels) (records : List Conflict) (hp : P.outline = plug path x)
    (he : Edit labels P.next false j x y) {entered : List (Handle × String)}
    (hr : records.map Conflict.right = if j = 0 then [] else [P.next]) :
    P.Lasts ⟨plug path y, P.loose, P.index, entered, P.conflicts ++ records, P.next + j⟩ :=
  lasts_edit hp he (exists_of_forall₂ (census_edit hp he)) _ _ _ (by simpa using hr)

theorem Lasts.grown {c d : Content} {n m : Notes} {cs : List Outline} {index : Index}
    {entered : List (Handle × String)}
    (hp : P.outline = plug path (.node P.current c n cs)) (hc : c.isContainer = true)
    (hd : d.isDeclaration = true) (hn : c.qualify (pathName "" path) = P.name) :
    P.Lasts ⟨plug path (.node P.current c n (cs ++ [.node P.next d m []])), P.loose, index, entered,
      P.conflicts, P.next + 1⟩ := by
  have he : Edit ⟨"", ""⟩ P.next true 1 (.node P.current c n cs)
      (.node P.current c n (cs ++ [.node P.next d m []])) := .grow _ _ _ _ _ _ hc hd
  have hcensus : ∀ e ∈ P.census, ∃ e' ∈ (plug path (.node P.current c n
      (cs ++ [.node P.next d m []]))).census "", e.Grows e' := fun e hmem =>
    ⟨e, (census_added hp hd hn).mem_iff.mpr (List.mem_cons_of_mem _ hmem), .refl e⟩
  simpa using lasts_edit hp he hcensus index entered [] rfl

end Draft

variable {o : Options} {P Q : Draft} {e : Event}

theorem Step.lasts (hs : Step o P e Q) : P.Lasts Q := by
  cases hs with
  | newScope s n path c m cs hu hp hc hn => exact .grown hp hc rfl hn
  | knownScope s n path h m cs hu hp =>
      simpa using Draft.Lasts.edited o.labels [] hp (.annotate _ _ _ _ _) rfl
  | keptHeader => exact .refl
  | contestedHeader s n path q c nq before after h t m cs hu hp =>
      exact .edited o.labels _ hp (.contest _ _ _ _ _ _ _ _ _ _ _) rfl
  | repeatedHeader s n path q old nq r h t m cs hu hp =>
      refine ⟨fun e he => ⟨e, he, .refl e⟩, List.Subset.refl _, fun h => h, fun h => h, ?_,
        Nat.le_succ _⟩
      exact ⟨[], [.node P.next (.scope s) n []], [⟨_, h, P.next, o.labels⟩], by simp, rfl, rfl, rfl,
        Or.inr ⟨_, rfl, rfl, Nat.lt_succ_self _⟩⟩
  | left => exact .refl
  | newLeaf l n path c m cs hu hp hc hn => exact .grown hp hc rfl hn
  | unitedLeaf l n path key h l' m cs hu hp hl =>
      simpa using Draft.Lasts.edited o.labels [] hp (.unite _ _ _ _ _ _ hl) rfl
  | keptLeaf => exact .refl
  | joinedLeaf l n path key q old nq b nb before after h c m cs r nr rs hu hp =>
      exact .edited o.labels _ hp (.join _ _ _ _ _ _ _ _ _) rfl
  | opposedLeaf l n path key q d nq before after h c m cs hu hp =>
      exact .edited o.labels _ hp (.oppose _ _ _ _ _ _ _ _) rfl
  | opposedHeaders l n path key q d nq before after k old nk h c m cs r hu hp =>
      exact .edited o.labels _ hp (.oppose _ _ _ _ _ _ _ _) rfl
  | remarked comments path c m cs hp =>
      simpa using Draft.Lasts.edited o.labels [] hp (.annotate _ _ _ _ _) rfl

end Reconcile.Merge
