import Reconcile.Proofs.Forest.Contest
import Reconcile.Proofs.Layout.Piece

namespace Reconcile

def Visibility.Precedes (v w : Visibility) : Prop := w = .pub → v = .pub

instance (v w : Visibility) : Decidable (v.Precedes w) :=
  inferInstanceAs (Decidable (w = .pub → v = .pub))

/-- The members of a visibility group. -/
structure Band where
  visibility : Visibility
  members : List Leaf

namespace Band

/-- There are members, and they are declared with the visibility of the band. -/
def Truthful (b : Band) : Prop :=
  b.members ≠ [] ∧ ∀ l ∈ b.members, l.visibility? = some b.visibility

def after (now : Visibility) (b : Band) : Visibility := if b.visibility = .pub then now else b.visibility

def afterAll (now : Visibility) (bs : List Band) : Visibility := bs.foldl after now

/-- What a reader sees of the bands of a body. -/
def seen (now : Visibility) : List Band → List (Leaf × Visibility)
  | [] => []
  | b :: bs => b.members.map (·, after now b) ++ seen (after now b) bs

variable {as bs : List Band}

theorem afterAll_append (now : Visibility) (as bs : List Band) :
    afterAll now (as ++ bs) = afterAll (afterAll now as) bs := List.foldl_append

theorem seen_append (now : Visibility) (as bs : List Band) :
    seen now (as ++ bs) = seen now as ++ seen (afterAll now as) bs := by
  induction as generalizing now with
  | nil => rfl
  | cons a as ih => simp [seen, ih, afterAll]

theorem map_fst_seen (now : Visibility) (bs : List Band) :
    (seen now bs).map (·.1) = bs.flatMap members := by
  induction bs generalizing now with
  | nil => rfl
  | cons b bs ih => simp [seen, ih, Function.comp_def]

theorem seen_of_not_pub (h : ∀ b ∈ bs, b.Truthful) {now : Visibility} {x : Leaf × Visibility}
    (hx : x ∈ seen now bs) (hv : x.1.visibility? ≠ some .pub) : x.1.visibility? = some x.2 := by
  induction bs generalizing now with
  | nil => cases hx
  | cons b bs ih =>
      rcases List.mem_append.mp hx with hx | hx
      · obtain ⟨l, hl, rfl⟩ := List.mem_map.mp hx
        have hlb := (h b List.mem_cons_self).2 l hl
        have hb : b.visibility ≠ .pub := fun hb => hv (hb ▸ hlb)
        simpa [after, hb] using hlb
      · exact ih (fun c hc => h c (List.mem_cons_of_mem b hc)) hx

/-- All members are seen as they are declared if and only if public bands come first. -/
theorem seen_iff (h : ∀ b ∈ bs, b.Truthful) (now : Visibility) :
    (∀ x ∈ seen now bs, x.1.visibility? = some x.2) ↔
      (now :: bs.map visibility).Pairwise Visibility.Precedes := by
  induction bs generalizing now with
  | nil => simp [seen]
  | cons b bs ih =>
      obtain ⟨hne, hb⟩ := h b List.mem_cons_self
      have hown : (∀ x ∈ b.members.map (·, after now b), x.1.visibility? = some x.2) ↔
          now.Precedes b.visibility := by
        obtain ⟨l, hl⟩ := List.exists_mem_of_ne_nil _ hne
        simp only [List.forall_mem_map, Visibility.Precedes, after]
        constructor
        · intro hall hpub
          simpa [hb l hl, hpub, eq_comm] using hall l hl
        · intro hpub m hm
          rw [hb m hm]
          split
          · next hv => rw [hv, hpub hv]
          · rfl
      rw [seen, List.forall_mem_append, hown, ih (fun c hc => h c (List.mem_cons_of_mem b hc)),
        List.map_cons, List.pairwise_cons, List.pairwise_cons, List.pairwise_cons, List.forall_mem_cons]
      -- The band in force is the last one that is not public.
      by_cases hv : b.visibility = .pub
      · simp only [after, hv, if_true, Visibility.Precedes]
        tauto
      · simp only [after, hv, if_false, Visibility.Precedes]
        tauto

end Band

namespace Outline

mutual

def bands : Outline → List Band
  | node _ .tree _ cs | node _ (.group _) _ cs => bandsOfAll cs
  | node _ (.visibilityGroup v) _ cs => [⟨v, (cs.flatMap leaves).map (·.1)⟩]
  | _ => []

def bandsOfAll : List Outline → List Band
  | [] => []
  | o :: os => o.bands ++ bandsOfAll os

end

mutual

def seenInScopes : Outline → List (Leaf × Visibility)
  | node _ .tree _ cs | node _ (.group _) _ cs => seenInScopesOfAll cs
  | node _ (.scope _) _ cs => Band.seen .pub (bandsOfAll cs) ++ seenInScopesOfAll cs
  | _ => []

def seenInScopesOfAll : List Outline → List (Leaf × Visibility)
  | [] => []
  | o :: os => o.seenInScopes ++ seenInScopesOfAll os

end

@[simp] theorem bandsOfAll_eq (os : List Outline) : bandsOfAll os = os.flatMap bands := by
  induction os with
  | nil => rfl
  | cons o os ih => simp [bandsOfAll, ih]

@[simp] theorem seenInScopesOfAll_eq (os : List Outline) :
    seenInScopesOfAll os = os.flatMap seenInScopes := by
  induction os with
  | nil => rfl
  | cons o os ih => simp [seenInScopesOfAll, ih]

/-- What can be in a visibility group: methods and attributes of that visibility, and groups of
them. -/
inductive Shelved (v : Visibility) : Outline → Prop
  | leaf (h : Handle) (l : Leaf) (n : Notes) (hl : l.visibility? = some v) :
      Shelved v (node h (.leaf l) n [])
  | group (h : Handle) (k : Category) (n : Notes) (cs : List Outline) (hcs : ∀ x ∈ cs, Shelved v x) :
      Shelved v (node h (.group k) n cs)

/-- Methods and attributes are in visibility groups, and nothing else announces a visibility. -/
inductive Filed : Outline → Prop
  | tree (h : Handle) (n : Notes) (cs : List Outline) (hcs : ∀ x ∈ cs, Filed x) :
      Filed (node h .tree n cs)
  | scope (h : Handle) (s : Scope) (n : Notes) (cs : List Outline) (hcs : ∀ x ∈ cs, Filed x) :
      Filed (node h (.scope s) n cs)
  | group (h : Handle) (k : Category) (n : Notes) (cs : List Outline) (hcs : ∀ x ∈ cs, Filed x) :
      Filed (node h (.group k) n cs)
  | visibilityGroup (h : Handle) (v : Visibility) (n : Notes) (cs : List Outline)
      (hne : cs.flatMap leaves ≠ []) (hcs : ∀ x ∈ cs, Shelved v x) :
      Filed (node h (.visibilityGroup v) n cs)
  | leaf (h : Handle) (l : Leaf) (n : Notes) (hv : l.visibility? = none) (hm : ∀ v, l ≠ .marker v) :
      Filed (node h (.leaf l) n [])

def memberLeaves (o : Outline) : List Leaf := (o.leaves.map (·.1)).filter (·.visibility?.isSome)

theorem memberLeaves_node (h : Handle) {c : Content} (hc : c.isContainer = true) (n : Notes)
    (cs : List Outline) : (node h c n cs).memberLeaves = cs.flatMap memberLeaves := by
  have hown : ownLeaf c n = [] := by
    cases c with
    | leaf => cases hc
    | _ => rfl
  rw [memberLeaves, leaves_node, hown, List.nil_append, List.map_flatMap, List.filter_flatMap]
  rfl

variable {o : Outline} {v : Visibility}

theorem Shelved.visibility_of_mem (ho : o.Shelved v) : ∀ x ∈ o.leaves, x.1.visibility? = some v := by
  induction ho with
  | leaf h l n hl => simpa [ownLeaf] using hl
  | group h k n cs hcs ih =>
      intro x hx
      rw [leaves_node] at hx
      obtain ⟨y, hy, hx⟩ := List.mem_flatMap.mp (by simpa [ownLeaf] using hx)
      exact ih y hy x hx

namespace Filed

theorem truthful (ho : o.Filed) : ∀ b ∈ o.bands, b.Truthful := by
  induction ho with
  | tree h n cs hcs ih | group h k n cs hcs ih =>
      intro b hb
      obtain ⟨x, hx, hb⟩ := List.mem_flatMap.mp (by simpa [bands] using hb)
      exact ih x hx b hb
  | scope | leaf => exact nofun
  | visibilityGroup h v n cs hne hcs =>
      intro b hb
      cases List.mem_singleton.mp hb
      refine ⟨by simpa using hne, ?_⟩
      intro l hl
      obtain ⟨x, hx, rfl⟩ := List.mem_map.mp hl
      obtain ⟨y, hy, hx⟩ := List.mem_flatMap.mp hx
      exact (hcs y hy).visibility_of_mem x hx

theorem truthful_of_children {cs : List Outline} (hcs : ∀ x ∈ cs, x.Filed) :
    ∀ b ∈ cs.flatMap bands, b.Truthful := by
  intro b hb
  obtain ⟨x, hx, hb⟩ := List.mem_flatMap.mp hb
  exact (hcs x hx).truthful b hb

theorem seenInScopes_of_not_pub (ho : o.Filed) {x : Leaf × Visibility} (hx : x ∈ o.seenInScopes)
    (hv : x.1.visibility? ≠ some .pub) : x.1.visibility? = some x.2 := by
  induction ho with
  | tree h n cs hcs ih | group h k n cs hcs ih =>
      obtain ⟨y, hy, hx⟩ := List.mem_flatMap.mp (by simpa [seenInScopes] using hx)
      exact ih y hy hx
  | leaf | visibilityGroup => cases hx
  | scope h s n cs hcs ih =>
      rw [seenInScopes, bandsOfAll_eq, seenInScopesOfAll_eq] at hx
      rcases List.mem_append.mp hx with hx | hx
      · exact Band.seen_of_not_pub (truthful_of_children hcs) hx hv
      · obtain ⟨y, hy, hx⟩ := List.mem_flatMap.mp hx
        exact ih y hy hx

theorem perm_memberLeaves (ho : o.Filed) :
    (o.bands.flatMap Band.members ++ o.seenInScopes.map (·.1)).Perm o.memberLeaves := by
  have children {cs : List Outline} (ih : ∀ x ∈ cs,
      (x.bands.flatMap Band.members ++ x.seenInScopes.map (·.1)).Perm x.memberLeaves) :
      ((cs.flatMap bands).flatMap Band.members ++ (cs.flatMap seenInScopes).map (·.1)).Perm
        (cs.flatMap memberLeaves) := by
    rw [List.flatMap_assoc, List.map_flatMap]
    exact (List.flatMap_append_perm cs _ _).trans (List.Perm.flatMap_left cs ih)
  induction ho with
  | tree h n cs hcs ih | group h k n cs hcs ih =>
      rw [memberLeaves_node h rfl]
      simpa [bands, seenInScopes] using children ih
  | scope h s n cs hcs ih =>
      rw [memberLeaves_node h rfl]
      simpa [bands, seenInScopes, Band.map_fst_seen] using children ih
  | leaf h l n hv hm => simp [bands, seenInScopes, memberLeaves, ownLeaf, hv]
  | visibilityGroup h v n cs hne hcs =>
      have hmembers : cs.flatMap memberLeaves = cs.flatMap fun x => x.leaves.map (·.1) := by
        refine List.flatMap_congr fun x hx => List.filter_eq_self.mpr ?_
        intro l hl
        obtain ⟨y, hy, rfl⟩ := List.mem_map.mp hl
        rw [(hcs x hx).visibility_of_mem y hy]
        rfl
      rw [memberLeaves_node h rfl, hmembers]
      simp [bands, seenInScopes, List.map_flatMap]

end Filed

end Outline

namespace Layout

variable {style : Style} {level : Nat} {o : Outline} {os : List Outline}

theorem shown_notes (n : Notes) (around : List Visibility) (rest : List Piece) :
    shown around ((noteLines style level n).map .line ++ rest) = shown around rest :=
  shown_silent (isSilent_noteLines n) around rest

theorem shown_siblings_shelved (v : Visibility) (around : List Visibility) (rest : List Piece)
    (h : ∀ o ∈ os, ∀ rest, shown (v :: around) (pieces style level true o ++ rest) =
      o.leaves.map (·.1, v) ++ shown (v :: around) rest) :
    shown (v :: around) (siblingPieces style level true os ++ rest) =
      (os.flatMap Outline.leaves).map (·.1, v) ++ shown (v :: around) rest := by
  induction os with
  | nil => rfl
  | cons o os ih =>
      rw [siblingPieces, List.append_assoc, List.append_assoc, h o (by simp),
        shown_silent (isSilent_separator o os), ih fun x hx => h x (by simp [hx])]
      simp

theorem shown_shelved {w : Visibility} (ho : o.Shelved w) (v : Visibility) (around : List Visibility)
    (rest : List Piece) :
    shown (v :: around) (pieces style level true o ++ rest) =
      o.leaves.map (·.1, v) ++ shown (v :: around) rest := by
  induction ho generalizing rest with
  | leaf h l n hl =>
      rw [pieces, List.append_assoc, shown_notes, shown_member (Option.isSome_of_mem hl)]
      simp [Outline.ownLeaf]
  | group h k n cs hcs ih =>
      rw [pieces, List.append_assoc, shown_notes, shown_siblings_shelved v around rest ih]
      simp [Outline.ownLeaf]

/-- What a reader gets from an outline: the members in its bands and in its scopes are shown, and
the bands decide what is in force afterwards. -/
def Reads (style : Style) (o : Outline) : Prop :=
  ∀ level now around rest, ∃ xs, xs.Perm (Band.seen now o.bands ++ o.seenInScopes) ∧
    shown (now :: around) (pieces style level false o ++ rest) =
      xs ++ shown (Band.afterAll now o.bands :: around) rest

theorem shown_siblings (h : ∀ o ∈ os, Reads style o) (level : Nat) (now : Visibility)
    (around : List Visibility) (rest : List Piece) :
    ∃ xs, xs.Perm (Band.seen now (os.flatMap Outline.bands) ++ os.flatMap Outline.seenInScopes) ∧
      shown (now :: around) (siblingPieces style level false os ++ rest) =
        xs ++ shown (Band.afterAll now (os.flatMap Outline.bands) :: around) rest := by
  induction os generalizing now with
  | nil => exact ⟨[], .refl _, rfl⟩
  | cons o os ih =>
      obtain ⟨xs, hxs, hx⟩ := h o (by simp) level now around
        ((separator o os).map .line ++ siblingPieces style level false os ++ rest)
      obtain ⟨ys, hys, hy⟩ := ih (fun x hx => h x (by simp [hx])) (Band.afterAll now o.bands)
      refine ⟨xs ++ ys, ?_, ?_⟩
      · rw [List.flatMap_cons, List.flatMap_cons, Band.seen_append]
        exact (hxs.append hys).trans (Outline.perm_interchange _ _ _ _)
      · rw [List.append_assoc] at hx
        rw [siblingPieces, List.append_assoc, List.append_assoc, hx,
          shown_silent (isSilent_separator o os), hy, List.flatMap_cons, Band.afterAll_append]
        simp

theorem reads (ho : o.Filed) : Reads style o := by
  induction ho with
  | tree h n cs hcs ih | group h k n cs hcs ih =>
      intro level now around rest
      obtain ⟨xs, hxs, hx⟩ := shown_siblings ih level now around rest
      refine ⟨xs, by simpa [Outline.bands, Outline.seenInScopes] using hxs, ?_⟩
      rw [pieces, List.append_assoc, shown_notes, hx]
      simp [Outline.bands]
  | leaf h l n hv hm =>
      intro level now around rest
      refine ⟨[], by simp [Outline.bands, Outline.seenInScopes, Band.seen], ?_⟩
      have hpieces : leafPieces level false l = (leafLines level false l).map .line := by
        unfold leafPieces
        split
        · cases hv
        · cases hv
        · rfl
      rw [pieces, List.append_assoc, shown_notes, hpieces, shown_silent (isSilent_leafLines hv hm)]
      rfl
  | visibilityGroup h v n cs hne hcs =>
      intro level now around rest
      refine ⟨(cs.flatMap Outline.leaves).map (·.1, Band.after now ⟨v, []⟩), ?_, ?_⟩
      · simp [Outline.bands, Outline.seenInScopes, Band.seen, Band.after, Function.comp_def]
      · have hannounced : shown (now :: around) ((if v = .pub then [] else
            .line (.code level v.keyword) :: if cs.isEmpty then [] else [.line .blank]) ++
              siblingPieces style level true cs ++ rest) =
            shown (Band.after now ⟨v, []⟩ :: around) (siblingPieces style level true cs ++ rest) := by
          cases v <;> by_cases hc : cs.isEmpty = true <;>
            simp [hc, shown, announced?, Visibility.keyword, Band.after]
        rw [pieces, List.append_assoc, shown_notes, hannounced,
          shown_siblings_shelved _ _ _ fun x hx rest => shown_shelved (hcs x hx) _ _ _]
        rfl
  | scope h s n cs hcs ih =>
      intro level now around rest
      obtain ⟨xs, hxs, hx⟩ := shown_siblings ih (level + 1) .pub (now :: around)
        (.closing (.code level "end") :: rest)
      refine ⟨xs, by simpa [Outline.bands, Outline.seenInScopes, Band.seen] using hxs, ?_⟩
      rw [pieces, List.append_assoc, shown_notes]
      split
      · next hc =>
          cases List.isEmpty_iff.mp hc
          cases hxs.eq_nil
          have hsilent : ∀ l ∈ [Line.code level (s.header ++ "; end")], l.isSilent = true := by
            simpa using isSilent_of_mem (c := ' ') (by simp) blank_not_mem
          exact shown_silent hsilent (now :: around) rest
      · simpa [shown, Outline.bands, Band.afterAll] using hx

/-- A reader of a whole layout sees the bands of the tree and of its scopes. -/
theorem shown_treePieces (ho : o.Filed) :
    (shown [.pub] (treePieces style o)).Perm (Band.seen .pub o.bands ++ o.seenInScopes) := by
  obtain ⟨xs, hxs, hx⟩ := @reads style o ho 0 .pub [] []
  rw [treePieces, shown_silent (isSilent_sigilLines o)]
  simp only [List.append_nil, shown] at hx
  rwa [hx]

end Layout

end Reconcile
