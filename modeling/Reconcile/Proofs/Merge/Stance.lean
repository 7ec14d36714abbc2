import Reconcile.Proofs.Merge.Correspondence
import Reconcile.Proofs.Merge.Sides

namespace Reconcile.Merge

open Outline (plug)

variable {o : Options} {s : State} {P Q : Draft} {e : Event} {es : List (String × Event)}
  {r r' : Conflict} {x y : Outline} {labels : Labels} {k a b : Handle} {adds : Bool} {j : Nat}
  {path : List Frame} {before after : List Outline}

/-- The children that a node has before an edit and not after it. -/
def Displaced (x y : Outline) (a : Handle) : Prop :=
  a ∈ x.children.map Outline.handle ∧ a ∉ y.children.map Outline.handle

theorem eq_of_displaced {q : Handle} {c : Content} {n : Notes} {z : Outline}
    (h : Displaced (.node q c n (before ++ x :: after)) (.node q c n (before ++ z :: after)) a) :
    a = x.handle := by
  obtain ⟨ha, hn⟩ := h
  simp only [Outline.children, List.map_append, List.map_cons, List.mem_append, List.mem_cons,
    not_or] at ha hn
  exact (ha.resolve_left hn.1).resolve_right hn.2.2

theorem Edit.gains (h : Edit labels k adds j x y) : x.Gains (Displaced x y) y where
  handle := h.handle_eq
  declared := h.declared
  rivals := by
    obtain ⟨new, hnew, -⟩ := h.rivals
    exact List.map_subset _ fun z hz => hnew.mem_iff.mpr (List.mem_append_left _ hz)
  children := fun a ha hg => not_not.mp fun hn => hg ⟨ha, hn⟩

theorem Edit.widens (h : Edit labels k adds j x y) : x.Widens (Displaced x y) y := by
  cases h with
  | grow h c n cs d m =>
      refine .of_subset _ fun form l r hc => ?_
      rw [Outline.hasConflict_node] at hc ⊢
      obtain ⟨z, hz, hc⟩ := hc
      exact ⟨z, List.mem_append_left _ hz, hc⟩
  | annotate | unite => exact .of_subset _ fun form l r hc => by simpa using hc
  | contest q c n before after h t m cs s m' =>
      refine .of_subset _ fun form l r hc => ?_
      rw [Outline.hasConflict_node] at hc ⊢
      simp only [List.mem_append, List.mem_cons] at hc ⊢
      obtain ⟨z, hz | rfl | hz, hc⟩ := hc
      · exact ⟨z, Or.inl hz, hc⟩
      · refine ⟨_, Or.inr (Or.inl rfl), ?_⟩
        rw [Outline.hasConflict_conflict]
        exact Or.inr (Or.inl hc)
      · exact ⟨z, Or.inr (Or.inr hz), hc⟩
  | join q old n left r m rs l m' =>
      intro form L R hc
      simp only [Outline.hasConflict_conflict, Outline.hasConflict_node] at hc ⊢
      rcases hc with ⟨rfl, rfl, rfl⟩ | hc | ⟨z, hz, hc⟩
      · refine ⟨_, _, Or.inl ⟨rfl, rfl, rfl⟩, .refl _ _, rfl, ?_, ?_, ?_⟩
        · simp
        · simp
        · simp +contextual [Outline.children]
      · exact ⟨L, R, Or.inr (Or.inl hc), .refl _ _, .refl _ _⟩
      · exact ⟨L, R, Or.inr (Or.inr ⟨z, List.mem_append_left _ hz, hc⟩), .refl _ _, .refl _ _⟩
  | oppose q c n before after x l m =>
      refine .of_subset _ fun form L R hc => ?_
      rw [Outline.hasConflict_node] at hc ⊢
      simp only [List.mem_append, List.mem_cons] at hc ⊢
      obtain ⟨z, hz | rfl | hz, hc⟩ := hc
      · exact ⟨z, Or.inl hz, hc⟩
      · refine ⟨_, Or.inr (Or.inl rfl), ?_⟩
        rw [Outline.hasConflict_conflict, Outline.hasConflict_node]
        exact Or.inr (Or.inl ⟨z, List.mem_singleton_self _, hc⟩)
      · exact ⟨z, Or.inr (Or.inr hz), hc⟩

theorem Draft.widens_edit (hp : P.outline = plug path x) (he : Edit labels P.next adds j x y) :
    P.outline.Widens (Displaced x y) (plug path y) := by
  rw [hp]
  exact he.widens.plug he.gains path

theorem plain_of_disputes {look : Handle → Option Node} {parent : Option Handle}
    (hx : x.Holds look parent) (h : x.Disputes a b) :
    ∃ c n p ks, look a = some ⟨.plain c, n, p, ks⟩ := by
  obtain ⟨l, r, hc, ha, -⟩ := h
  obtain ⟨k, -, -, -, -, -, hl, -⟩ := hx.hasConflict hc
  obtain ⟨entry, he, rfl⟩ := List.mem_map.mp ha
  obtain ⟨path, cs, rfl, -⟩ := Outline.exists_path_of_mem_census he
  have hnode := ((holds_plug path _).mp hl).2
  exact ⟨_, _, _, _, ((Outline.holds_node ..).mp hnode).1⟩

theorem State.Depicts.not_heads (hd : s.Depicts P) (hv : P.Valid) (path : List Frame) {q : Handle}
    {c : Content} {n : Notes} (hp : P.outline = plug path (.node q c n (before ++ x :: after))) :
    ¬ P.outline.Heads x.handle b := by
  rintro ⟨l, r, hc, hl, -⟩
  obtain ⟨k, labels, m, p, -, hk, hleft, -⟩ := hd.outline.hasConflict hc
  obtain ⟨hq, hcs⟩ := (Outline.holds_node ..).mp (hd.part hv.standing hp).1
  obtain ⟨a, ha, hpa⟩ := (hcs x (by simp)).look_handle
  obtain ⟨a', ha', hpa'⟩ := hleft.look_handle
  rw [hl, ha] at ha'
  cases ha'
  cases hpa.symm.trans hpa'
  rw [hq] at hk
  cases hk

theorem State.Depicts.not_flanks (hd : s.Depicts P) (hv : P.Valid) {q : Handle} {c : Content}
    {n : Notes} (hp : P.outline = plug path (.node q c n (before ++ x :: after)))
    (hs : Draft.onSide path = false) : ¬ P.outline.Flanks x.handle b := by
  rintro ⟨l, r, hc, ha, -⟩
  obtain ⟨k, labels, m, p, -, hk, hl, -⟩ := hd.outline.hasConflict hc
  have hq := (hd.part hv.standing hp).1
  have heq := hl.handle_eq_of_child hq ha (by simp [Outline.children])
  obtain ⟨a, hla, hpa⟩ := hl.look_handle
  rw [heq, Outline.handle_node, ((Outline.holds_node ..).mp hq).1] at hla
  cases hla
  obtain ⟨m', hm', hne⟩ := hd.owner hp hs hpa
  rw [hk] at hm'
  cases hm'
  exact hne _ _ _ rfl

theorem Step.widens (hd : s.Depicts P) (hv : P.Valid) (hs : Step o P e Q) :
    ∃ gone, P.outline.Widens gone Q.outline ∧ ∀ a b, gone a → P.outline.Disputes a b →
      P.outline.Flanks a b → ∃ b, Q.outline.Heads a b := by
  have unchanged : ∃ gone, P.outline.Widens gone P.outline ∧ ∀ a b, gone a →
      P.outline.Disputes a b → P.outline.Flanks a b → ∃ b, P.outline.Heads a b :=
    ⟨fun _ => False, .of_subset _ fun _ _ _ hc => hc, fun _ _ hg => hg.elim⟩
  have kept {path : List Frame} {x y : Outline} {adds : Bool} {j : Nat}
      (hp : P.outline = plug path x) (he : Edit o.labels P.next adds j x y)
      (hc : x.children.map Outline.handle ⊆ y.children.map Outline.handle) :
      ∃ gone, P.outline.Widens gone (plug path y) ∧ ∀ a b, gone a → P.outline.Disputes a b →
        P.outline.Flanks a b → ∃ b, (plug path y).Heads a b :=
    ⟨_, Draft.widens_edit hp he, fun a b hg => absurd (hc hg.1) hg.2⟩
  cases hs with
  | keptHeader | repeatedHeader | left | keptLeaf => exact unchanged
  | newScope s n path c m cs hu hp hc => exact kept hp (.grow _ _ _ _ _ _ hc rfl) (by simp [Outline.children])
  | newLeaf l n path c m cs hu hp hc => exact kept hp (.grow _ _ _ _ _ _ hc rfl) (by simp [Outline.children])
  | knownScope s n path h m cs hu hp => exact kept hp (.annotate _ _ _ _ _) (by simp [Outline.children])
  | remarked comments path c m cs hp => exact kept hp (.annotate _ _ _ _ _) (by simp [Outline.children])
  | unitedLeaf l n path key h l' m cs hu hp hl =>
      exact kept hp (.unite _ _ _ _ _ _ hl) (by simp [Outline.children])
  | joinedLeaf l n path key q old nq b nb before after h c m cs r nr rs hu hp =>
      exact kept hp (.join _ _ _ _ _ _ _ _ _) (by simp [Outline.children])
  | contestedHeader s n path q c nq before after h t m cs hu hp =>
      have he : Edit o.labels P.next false 2 _ _ := .contest q c nq before after h t m cs s n
      refine ⟨_, Draft.widens_edit hp he, fun a b hg _ _ => ?_⟩
      cases eq_of_displaced hg
      exact ⟨P.next, _, _, Outline.hasConflict_at (.node q c nq before after :: path) _ _ _ _ _ _,
        rfl, rfl⟩
  | opposedLeaf l n path key q d nq before after h c m cs hu hp hside =>
      have he : Edit o.labels P.next false 4 _ _ :=
        .oppose q d nq before after (.node h c m cs) l n
      refine ⟨_, Draft.widens_edit hp he, fun a b hg _ hf => ?_⟩
      cases eq_of_displaced hg
      exact absurd hf (hd.not_flanks hv hp hside)
  | opposedHeaders l n path key q d nq before after k old nk h c m cs r hu hp =>
      have he : Edit o.labels P.next false 4 _ _ :=
        .oppose q d nq before after (.conflict k .headers old nk (.node h c m cs) r) l n
      refine ⟨_, Draft.widens_edit hp he, fun a b hg hdis _ => ?_⟩
      cases eq_of_displaced hg
      obtain ⟨c', n', p, ks, hplain⟩ := plain_of_disputes hd.outline hdis
      obtain ⟨-, hcs⟩ := (Outline.holds_node ..).mp (hd.part hv.standing hp).1
      have hk := hcs (.conflict k .headers old nk (.node h c m cs) r) (by simp)
      rw [Outline.handle_conflict, ((Outline.holds_conflict ..).mp hk).1] at hplain
      cases hplain

/-- The content of a node that has been set against a declaration. -/
def Draft.Sets (P : Draft) (h : Handle) (c : Content) : Prop :=
  ∃ n, .node h c n [] ∈ P.outline.rivals ++ P.loose

theorem Draft.Lasts.sets (hl : P.Lasts Q) {c : Content} (h : P.Sets a c) : Q.Sets a c := by
  obtain ⟨n, hn⟩ := h
  rw [List.mem_append] at hn
  exact ⟨n, List.mem_append.mpr (hn.imp hl.rivals hl.loose)⟩

theorem Draft.sets_at {l : Outline} {c : Content} {n : Notes} {labels : Labels} {m : Notes}
    {form : ConflictForm} {right : Outline} (path : List Frame)
    (hp : P.outline = plug path (.conflict k form labels m l right))
    (hr : .node a c n [] ∈ form.rivals right) : P.Sets a c := by
  refine ⟨n, List.mem_append_left _ ?_⟩
  rw [hp]
  refine Outline.rivals_plug path ?_
  rw [Outline.rivals_conflict]
  exact List.mem_append_left _ hr

theorem Draft.Accounts.eq_of_handle (ha : P.Accounts) (hx : x ∈ P.outline.rivals ++ P.loose)
    (hy : y ∈ P.outline.rivals ++ P.loose) (hh : x.handle = y.handle) : x = y :=
  List.inj_on_of_nodup_map (ha.rights.nodup_iff.mpr ha.nodup) hx hy hh

theorem Draft.Accounts.sets_unique (ha : P.Accounts) {c d : Content} (hc : P.Sets a c)
    (hd : P.Sets a d) : c = d := by
  obtain ⟨n, hn⟩ := hc
  obtain ⟨m, hm⟩ := hd
  cases ha.eq_of_handle hn hm rfl
  rfl

/-- Where the right node of a record is. A header is against the left node, or it is loose and
another one is. A leaf is against something that the left node is in: against the left node
directly, unless a header contests the left node. -/
inductive Draft.Stands (P : Draft) (r : Conflict) : Prop
  | header (t : Scope) (hs : P.Sets r.right (.scope t)) (b : Handle) (hb : P.outline.Heads r.left b)
      (hr : r.right ∈ P.loose.map Outline.handle ∨ P.outline.Heads r.left r.right)
  | leaf (l : Leaf) (hs : P.Sets r.right (.leaf l)) (hd : P.outline.Disputes r.left r.right)
      (hf : (∃ b, P.outline.Heads r.left b) ∨ P.outline.Flanks r.left r.right)

theorem Step.stands_still (hd : s.Depicts P) (hv : P.Valid) (hs : Step o P e Q) (h : P.Stands r) :
    Q.Stands r := by
  obtain ⟨gone, hw, hgone⟩ := hs.widens hd hv
  cases h with
  | header t ht b hb hr =>
      refine .header t (hs.lasts.sets ht) b (hw.heads hb) (hr.imp (fun hl => ?_) hw.heads)
      obtain ⟨x, hx, heq⟩ := List.mem_map.mp hl
      exact heq ▸ List.mem_map_of_mem (hs.lasts.loose hx)
  | leaf l hl hdis hf =>
      refine .leaf l (hs.lasts.sets hl) (hw.disputes hdis) ?_
      rcases hf with ⟨b, hb⟩ | hf
      · exact Or.inl ⟨b, hw.heads hb⟩
      · by_cases hg : gone r.left
        · exact Or.inl (hgone _ _ hg hdis hf)
        · exact Or.inr (hw.flanks hg hf)

theorem Draft.stands_leaf {k q : Handle} {labels : Labels} {m nq : Notes} {l : Outline}
    {leaf : Leaf} {n : Notes} (path : List Frame) (rs : List Outline)
    (hp : P.outline = plug path (.conflict k .declarations labels m l (.node q .tree nq
      (rs ++ [.node r.right (.leaf leaf) n []]))))
    (hl : r.left ∈ l.declared)
    (hf : (∃ b, P.outline.Heads r.left b) ∨ r.left ∈ l.children.map Outline.handle) : P.Stands r := by
  have hc : P.outline.HasConflict .declarations l _ := hp ▸ Outline.hasConflict_at path k _ labels m l _
  have hr : r.right ∈ (rs ++ [Outline.node r.right (.leaf leaf) n []]).map Outline.handle := by simp
  refine .leaf leaf (Draft.sets_at (n := n) path hp (by simp [ConflictForm.rivals, Outline.children]))
    ⟨_, _, hc, hl, hr⟩ (hf.imp_right fun hf => ⟨_, _, hc, hf, hr⟩)

theorem Step.sets_header {t : Scope} {n : Notes} (hs : Step o P (.enter t n) Q)
    (hc : Q.conflicts = P.conflicts ++ [r]) : Q.Sets r.right (.scope t) := by
  cases hs with
  | newScope | knownScope | keptHeader => simp at hc
  | contestedHeader _ _ path q c nq before after =>
      cases List.append_cancel_left hc
      exact Draft.sets_at (n := n) (.node q c nq before after :: path) rfl (by simp [ConflictForm.rivals])
  | repeatedHeader =>
      cases List.append_cancel_left hc
      exact ⟨n, by simp⟩

theorem Step.stands (hd : s.Depicts P) (hv : P.Valid) (hs : Step o P e Q)
    (hP : ∀ r ∈ P.conflicts, P.Stands r) : ∀ r ∈ Q.conflicts, Q.Stands r := by
  have still : ∀ r ∈ P.conflicts, Q.Stands r := fun r hr => hs.stands_still hd hv (hP r hr)
  have recorded {r : Conflict} (hc : Q.conflicts = P.conflicts ++ [r]) (hr : Q.Stands r) :
      ∀ r ∈ Q.conflicts, Q.Stands r := by
    intro r' hr'
    rw [hc, List.mem_append, List.mem_singleton] at hr'
    rcases hr' with hr' | rfl
    · exact still r' hr'
    · exact hr
  have header {t : Scope} {n : Notes} (he : e = .enter t n) {r : Conflict}
      (hc : Q.conflicts = P.conflicts ++ [r]) : Q.Sets r.right (.scope t) := by
    subst he
    exact hs.sets_header hc
  cases hs with
  | newScope | knownScope | keptHeader | left | newLeaf | unitedLeaf | keptLeaf | remarked => exact still
  | contestedHeader t n path q c nq before after h t' m cs hu hp =>
      refine recorded rfl ?_
      have hh : (plug path (.node q c nq (before ++ .conflict (P.next + 1) .headers o.labels {}
          (.node h (.scope t') m cs) (.node P.next (.scope t) n []) :: after))).Heads h P.next :=
        ⟨_, _, Outline.hasConflict_at (.node q c nq before after :: path) _ _ _ _ _ _, rfl, rfl⟩
      exact .header t (header rfl rfl) P.next hh (Or.inr hh)
  | repeatedHeader t n path q old nq r h t' m cs hu hp =>
      refine recorded rfl (.header t (header rfl rfl) r.handle ?_ (Or.inl (by simp)))
      rw [hp]
      exact ⟨_, _, Outline.hasConflict_at path _ _ _ _ _ _, rfl, rfl⟩
  | joinedLeaf l n path key q old nq b nb before after h c m cs r nr rs hu hp =>
      have hdecl := hv.mem_keys (.node b .tree nb before after ::
        .left q .declarations old nq (.node r .tree nr rs) :: path) hu hp
      exact recorded rfl (Draft.stands_leaf path rs rfl (by simp [hdecl.1])
        (Or.inr (by simp [Outline.children])))
  | opposedLeaf l n path key q d nq before after h c m cs hu hp =>
      have hdecl := hv.mem_keys (.node q d nq before after :: path) hu hp
      refine recorded rfl (Draft.stands_leaf (.node q d nq before after :: path) [] rfl
        (by simp [hdecl.1]) (Or.inr (by simp [Outline.children])))
  | opposedHeaders l n path key q d nq before after k old nk h c m cs r hu hp =>
      have hdecl := hv.mem_keys (.left k .headers old nk r :: .node q d nq before after :: path) hu hp
      refine recorded rfl (Draft.stands_leaf (.node q d nq before after :: path) [] rfl
        (by simp [hdecl.1]) (Or.inl ⟨r.handle, ?_⟩))
      refine ⟨_, _, Outline.hasConflict_at (.node (P.next + 1) .tree {} [] [] ::
        .left (P.next + 3) .declarations o.labels {} (.node (P.next + 2) .tree {}
          [.node P.next (.leaf l) n []]) :: .node q d nq before after :: path) k .headers old nk
        (.node h c m cs) r, rfl, rfl⟩

end Reconcile.Merge
