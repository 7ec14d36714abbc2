import Reconcile.Proofs.Forest.WellFormed

namespace Reconcile

open Function (update_apply)

namespace Kind

theorem sides_of_container {k : Kind} (hk : k.isContainer = true) : k.sides = [] := by
  cases k with
  | plain => rfl
  | conflict => cases hk

def shape : Kind → Kind
  | plain (.scope _) => plain (.scope .singleton)
  | plain (.leaf _) => plain (.leaf (.marker .pub))
  | k => k

@[simp] theorem isContainer_shape (k : Kind) : k.shape.isContainer = k.isContainer := by
  unfold shape
  split <;> rfl

@[simp] theorem sides_shape (k : Kind) : k.shape.sides = k.sides := by
  unfold shape
  split <;> rfl

theorem isContainer_of_shape {k k' : Kind} (hk : k.shape = k'.shape) :
    k.isContainer = k'.isContainer := by
  rw [← isContainer_shape, hk, isContainer_shape]

theorem canBeSideOf_shape (k k' : Kind) : k.shape.canBeSideOf k'.shape = k.canBeSideOf k' := by
  cases k' with
  | plain d =>
      cases k with
      | plain c => cases c <;> cases d <;> rfl
      | conflict => cases d <;> rfl
  | conflict form labels l r =>
      cases k with
      | plain c => cases c <;> cases form <;> rfl
      | conflict => rfl

theorem conflict_of_shape {k : Kind} {form : ConflictForm} {labels : Labels} {l r : Handle}
    (hk : k.shape = conflict form labels l r) : k = conflict form labels l r := by
  unfold shape at hk
  split at hk
  · cases hk
  · cases hk
  · exact hk

theorem tree_of_shape {k : Kind} (hk : k.shape = plain .tree) : k = plain .tree := by
  unfold shape at hk
  split at hk
  · cases hk
  · cases hk
  · exact hk

end Kind

/-- What is directly below a node: the children of a container, the sides of a conflict. -/
def Node.below (n : Node) : List Handle := n.children ++ n.kind.sides

theorem Node.below_conflict (form : ConflictForm) (labels : Labels) (notes : Notes)
    (parent : Option Handle) (l r : Handle) :
    Node.below ⟨.conflict form labels l r, notes, parent, []⟩ = [l, r] := rfl

theorem Node.below_parent (n : Node) (parent : Option Handle) :
    Node.below { n with parent } = n.below := rfl

def parentIn (look : Handle → Option Node) (h : Handle) : Option Handle := (look h).bind Node.parent

def belowIn (look : Handle → Option Node) (h : Handle) : List Handle := (look h).elim [] Node.below

/-- The links of a table of nodes agree in both directions, and `ρ` rises along them. -/
structure Ranked (look : Handle → Option Node) (ρ : Handle → Nat) : Prop where
  root : ∃ n, look Forest.root = some n ∧ n.kind = .plain .tree ∧ n.parent = none
  links : ∀ x p, parentIn look x = some p ↔ x ∈ belowIn look p
  nodup : ∀ p, (belowIn look p).Nodup
  rises : ∀ x p, parentIn look x = some p → ρ p < ρ x
  holds : ∀ h n, look h = some n → n.kind.isContainer = true ∨ n.children = []
  suits : ∀ h n s m, look h = some n → s ∈ n.kind.sides → look s = some m →
    m.kind.canBeSideOf n.kind = true

/-- A handle that is linked to nothing. -/
structure Apart (look : Handle → Option Node) (x : Handle) : Prop where
  parent : parentIn look x = none
  below : belowIn look x = []

variable {look : Handle → Option Node} {ρ ρ' : Handle → Nat} {h p c x l r : Handle} {n m k : Node}

theorem parentIn_of_look (hn : look h = some n) : parentIn look h = n.parent := by
  simp [parentIn, hn]

theorem belowIn_of_look (hn : look h = some n) : belowIn look h = n.below := by
  simp [belowIn, hn]

theorem Apart.of_none (hx : look x = none) : Apart look x := by
  constructor
  · simp [parentIn, hx]
  · simp [belowIn, hx]

theorem Apart.of_look (hn : look h = some n) (hp : n.parent = none) (hb : n.below = []) :
    Apart look h :=
  ⟨(parentIn_of_look hn).trans hp, (belowIn_of_look hn).trans hb⟩

theorem parentIn_update (look : Handle → Option Node) (h : Handle) (n : Node) :
    parentIn (Function.update look h (some n)) = Function.update (parentIn look) h n.parent := by
  funext x
  by_cases hx : x = h <;> simp [parentIn, hx]

theorem belowIn_update (look : Handle → Option Node) (h : Handle) (n : Node) :
    belowIn (Function.update look h (some n)) = Function.update (belowIn look) h n.below := by
  funext x
  by_cases hx : x = h <;> simp [belowIn, hx]

namespace Ranked

theorem rerank (hf : Ranked look ρ) (hρ : ∀ x p, parentIn look x = some p → ρ' p < ρ' x) :
    Ranked look ρ' :=
  ⟨hf.root, hf.links, hf.nodup, hρ, hf.holds, hf.suits⟩

theorem spread (hf : Ranked look ρ) {factor : Nat} (hfactor : 0 < factor)
    (hρ : ∀ x, ¬ Apart look x → ρ' x = factor * ρ x) : Ranked look ρ' := by
  apply hf.rerank
  intro x p hx
  have hup : ¬ Apart look x := fun ha => by
    rw [ha.parent] at hx
    cases hx
  have hdown : ¬ Apart look p := fun ha => by
    have hlink := (hf.links x p).mp hx
    rw [ha.below] at hlink
    cases hlink
  rw [hρ x hup, hρ p hdown]
  exact Nat.mul_lt_mul_of_pos_left (hf.rises x p hx) hfactor

theorem ne_parent (hf : Ranked look ρ) (hc : look c = some m) (hm : m.parent = some p) : p ≠ c := by
  rintro rfl
  exact Nat.lt_irrefl _ (hf.rises _ _ ((parentIn_of_look hc).trans hm))

theorem exists_parent (hf : Ranked look ρ) (hn : look h = some n) (hp : n.parent = some p) :
    ∃ m, look p = some m ∧ h ∈ m.below := by
  have hlink := (hf.links h p).mp ((parentIn_of_look hn).trans hp)
  cases hm : look p with
  | none => simp [belowIn, hm] at hlink
  | some m =>
      rw [belowIn_of_look hm] at hlink
      exact ⟨m, rfl, hlink⟩

theorem container_of_mem (hf : Ranked look ρ) (hn : look h = some n) (hc : c ∈ n.children) :
    n.kind.isContainer = true := by
  refine (hf.holds h n hn).resolve_right fun hnil => ?_
  rw [hnil] at hc
  cases hc

theorem child_iff (hf : Ranked look ρ) (hp : look p = some n) (hn : n.kind.isContainer = true)
    (hc : look c = some m) : c ∈ n.children ↔ m.parent = some p := by
  have hlink := hf.links c p
  rw [parentIn_of_look hc, belowIn_of_look hp, Node.below, Kind.sides_of_container hn,
    List.append_nil] at hlink
  exact hlink.symm

theorem parentIn_side (hf : Ranked look ρ) (hn : look h = some n) (hx : x ∈ n.kind.sides) :
    parentIn look x = some h := by
  rw [hf.links, belowIn_of_look hn, Node.below]
  exact List.mem_append_right _ hx

theorem nodup_children (hf : Ranked look ρ) (hp : look p = some n) : n.children.Nodup := by
  have hd := hf.nodup p
  rw [belowIn_of_look hp, Node.below, List.nodup_append'] at hd
  exact hd.1

theorem create (hf : Ranked look ρ) (hx : look x = none) (content : Content) (notes : Notes) :
    Ranked (Function.update look x (some ⟨.plain content, notes, none, []⟩)) ρ := by
  obtain ⟨hparent, hbelow⟩ := Apart.of_none hx
  have hside := @hf.parentIn_side
  obtain ⟨root, links, nodup, rises, holds, suits⟩ := hf
  constructor
  case root => grind
  case links =>
    simp only [parentIn_update, belowIn_update, update_apply, Node.below, Kind.sides]
    grind
  case nodup =>
    simp only [belowIn_update, update_apply, Node.below, Kind.sides]
    grind
  case rises =>
    simp only [parentIn_update, update_apply]
    grind
  case holds => grind
  case suits =>
    simp only [update_apply]
    grind [Kind.sides]

theorem detach (hf : Ranked look ρ) (hc : look c = some m) (hm : m.parent = some p)
    (hp : look p = some n) (hn : n.kind.isContainer = true) :
    Ranked (Function.update (Function.update look c (some { m with parent := none })) p
      (some { n with children := n.children.filter (· != c) })) ρ := by
  have hpc := hf.ne_parent hc hm
  have hparent := parentIn_of_look hc
  have hparent' := parentIn_of_look hp
  have hbelow := belowIn_of_look hc
  have hbelow' := belowIn_of_look hp
  have hsides := Kind.sides_of_container hn
  obtain ⟨root, links, nodup, rises, holds, suits⟩ := hf
  constructor
  case root => grind
  case links =>
    simp only [parentIn_update, belowIn_update, update_apply, Node.below]
    grind [Node.below]
  case nodup =>
    simp only [belowIn_update, update_apply, Node.below]
    grind [Node.below]
  case rises =>
    simp only [parentIn_update, update_apply]
    grind
  case holds => grind
  case suits => grind

theorem insert (hf : Ranked look ρ) (hp : look p = some n) (hn : n.kind.isContainer = true)
    (hc : look c = some m) (hm : m.parent = none) (hroot : c ≠ Forest.root) (hρ : ρ p < ρ c)
    {children : List Handle} (hcs : children.Perm (c :: n.children)) :
    Ranked (Function.update (Function.update look p (some { n with children })) c
      (some { m with parent := some p })) ρ := by
  have hpc : p ≠ c := by
    rintro rfl
    exact Nat.lt_irrefl _ hρ
  have hnew : c ∉ n.children := by
    rw [hf.child_iff hp hn hc, hm]
    simp
  have hmem (x : Handle) : x ∈ children ↔ x = c ∨ x ∈ n.children := by
    rw [hcs.mem_iff, List.mem_cons]
  have hnodup : children.Nodup := hcs.nodup_iff.mpr (List.nodup_cons.mpr ⟨hnew, hf.nodup_children hp⟩)
  have hparent := parentIn_of_look hc
  have hparent' := parentIn_of_look hp
  have hbelow := belowIn_of_look hc
  have hbelow' := belowIn_of_look hp
  have hsides := Kind.sides_of_container hn
  obtain ⟨root, links, nodup, rises, holds, suits⟩ := hf
  constructor
  case root => grind
  case links =>
    simp only [parentIn_update, belowIn_update, update_apply, Node.below]
    grind [Node.below]
  case nodup =>
    simp only [belowIn_update, update_apply, Node.below]
    grind [Node.below]
  case rises =>
    simp only [parentIn_update, update_apply]
    grind
  case holds => grind
  case suits => grind

theorem oppose (hf : Ranked look ρ) (hx : look x = none) (hl : look l = some n)
    (hr : look r = some m) (hn : n.parent = none) (hm : m.parent = none) (hlr : l ≠ r)
    (hroot : l ≠ Forest.root) (hroot' : r ≠ Forest.root) (hρ : ρ x < ρ l) (hρ' : ρ x < ρ r)
    (form : ConflictForm) (labels : Labels) (notes : Notes)
    (hsl : n.kind.canBeSideOf (.conflict form labels l r) = true)
    (hsr : m.kind.canBeSideOf (.conflict form labels l r) = true) :
    Ranked (Function.update (Function.update (Function.update look x
      (some ⟨.conflict form labels l r, notes, none, []⟩)) l (some { n with parent := some x })) r
      (some { m with parent := some x })) ρ := by
  have hparent := parentIn_of_look hl
  have hparent' := parentIn_of_look hr
  have hbelow := belowIn_of_look hl
  have hbelow' := belowIn_of_look hr
  obtain ⟨hfresh, hfresh'⟩ := Apart.of_none hx
  have hside := @hf.parentIn_side
  obtain ⟨root, links, nodup, rises, holds, suits⟩ := hf
  constructor
  case root => grind
  case links =>
    simp only [parentIn_update, belowIn_update, update_apply, Node.below_conflict, Node.below_parent]
    grind
  case nodup =>
    simp only [belowIn_update, update_apply, Node.below_conflict, Node.below_parent]
    grind
  case rises =>
    simp only [parentIn_update, update_apply]
    grind
  case holds => grind
  case suits =>
    have hsides : (Kind.conflict form labels l r).sides = [l, r] := rfl
    simp only [update_apply]
    grind

theorem amend (hf : Ranked look ρ) (hn : look h = some n) {k : Kind} (hk : k.shape = n.kind.shape)
    (notes : Notes) : Ranked (Function.update look h (some { n with kind := k, notes })) ρ := by
  have hparent := parentIn_of_look hn
  have hbelow := belowIn_of_look hn
  have hsides : k.sides = n.kind.sides := by rw [← Kind.sides_shape, hk, Kind.sides_shape]
  have hroom := Kind.isContainer_of_shape hk
  have hside (k' : Kind) : k.canBeSideOf k' = n.kind.canBeSideOf k' := by
    rw [← Kind.canBeSideOf_shape, hk, Kind.canBeSideOf_shape]
  have hside' (k' : Kind) : k'.canBeSideOf k = k'.canBeSideOf n.kind := by
    rw [← Kind.canBeSideOf_shape, hk, Kind.canBeSideOf_shape]
  have htree : n.kind = .plain .tree → k = .plain .tree := fun he =>
    Kind.tree_of_shape (hk.trans (by rw [he]; rfl))
  obtain ⟨root, links, nodup, rises, holds, suits⟩ := hf
  constructor
  case root => grind
  case links =>
    simp only [parentIn_update, belowIn_update, update_apply, Node.below]
    grind [Node.below]
  case nodup =>
    simp only [belowIn_update, update_apply, Node.below]
    grind [Node.below]
  case rises =>
    simp only [parentIn_update, update_apply]
    grind
  case holds => grind
  case suits => grind

theorem reorder (hf : Ranked look ρ) (hn : look h = some n) {order : List Handle}
    (hp : order.Perm n.children) :
    Ranked (Function.update look h (some { n with children := order })) ρ := by
  have hmem (x : Handle) := hp.mem_iff (a := x)
  have hnil : n.children = [] → order = [] := by
    intro he
    exact List.perm_nil.mp (he ▸ hp)
  have hnodup : (order ++ n.kind.sides).Nodup := by
    have hd := hf.nodup h
    rw [belowIn_of_look hn, Node.below] at hd
    exact (hp.append_right _).nodup_iff.mpr hd
  have hparent := parentIn_of_look hn
  have hbelow := belowIn_of_look hn
  obtain ⟨root, links, nodup, rises, holds, suits⟩ := hf
  constructor
  case root => grind
  case links =>
    simp only [parentIn_update, belowIn_update, update_apply, Node.below]
    grind [Node.below]
  case nodup =>
    simp only [belowIn_update, update_apply, Node.below]
    grind
  case rises =>
    simp only [parentIn_update, update_apply]
    grind
  case holds => grind
  case suits => grind

end Ranked

namespace Forest

variable {f : Forest}

def depth (f : Forest) (h : Handle) : Nat := ((f.ancestors h).toOption.map List.length).getD 0

theorem depth_of_ancestors {up : List Handle} (hup : f.ancestors h = .ok up) : f.depth h = up.length := by
  rw [depth, hup]
  rfl

theorem WellFormed.exists_ancestors (hf : f.WellFormed) (hn : f.look h = some n) :
    ∃ up, f.ancestors h = .ok up := by
  have hok := hf.chain h (look_lt hn)
  cases hup : f.ancestors h with
  | error e => simp [hup, Except.isOk, Except.toBool] at hok
  | ok up => exact ⟨up, rfl⟩

theorem Unfolds.outline {parent : Option Handle} {l : List Handle} {o : Outline}
    (ho : f.Unfolds parent h l o) : f.outline h = .ok o := by
  rw [← ho.handle]
  exact outline_of_holds ho.holds ho.nodup

theorem WellFormed.exists_unfolds (hf : f.WellFormed) (hn : f.look h = some n) :
    ∃ up o, f.Unfolds n.parent h up o := by
  obtain ⟨up, hup⟩ := hf.exists_ancestors hn
  exact ⟨up, hf.unfolds f.size hup (by omega) hn⟩

theorem WellFormed.exists_outline (hf : f.WellFormed) (hn : f.look h = some n) :
    ∃ o, f.outline h = .ok o ∧ o.handle = h ∧ o.Holds f.look n.parent ∧ o.sound = true := by
  obtain ⟨up, o, ho⟩ := hf.exists_unfolds hn
  exact ⟨o, ho.outline, ho.handle, ho.holds, ho.sound⟩

theorem ancestors_of_root (hn : f.look h = some n) (hp : n.parent = none) : f.ancestors h = .ok [] := by
  rw [ancestors]
  cases hs : f.size with
  | zero => exact absurd (hs ▸ look_lt hn) (Nat.not_lt_zero h)
  | succ length =>
      simp only [ancestorsWithin, get_of_look hn, bind, Except.bind, hp]
      rfl

theorem WellFormed.known_ancestors (hf : f.WellFormed) {up : List Handle} (hup : f.ancestors h = .ok up)
    (hn : f.look h = some n) : ∀ x ∈ up, ∃ m, f.look x = some m := by
  induction up generalizing h n with
  | nil => simp
  | cons p up ih =>
      cases hp : n.parent with
      | none =>
          cases hup.symm.trans (ancestors_of_root hn hp)
      | some q =>
          obtain ⟨up', he, hup'⟩ := ancestors_cons hup hn hp
          cases he
          obtain ⟨m, hm, -⟩ := (hf.linked h (look_lt hn) n hn).parent p hp
          intro x hx
          rcases List.mem_cons.mp hx with rfl | hx
          · exact ⟨m, hm⟩
          · exact ih hup' hm x hx

theorem WellFormed.not_mem_ancestors (hf : f.WellFormed) {up : List Handle}
    (hup : f.ancestors h = .ok up) (hn : f.look h = some n) (hx : ∀ y, parentIn f.look y ≠ some x) :
    x ∉ up := by
  induction up generalizing h n with
  | nil => simp
  | cons p up ih =>
      cases hp : n.parent with
      | none => cases hup.symm.trans (ancestors_of_root hn hp)
      | some q =>
          obtain ⟨up', he, hup'⟩ := ancestors_cons hup hn hp
          cases he
          obtain ⟨m, hm, -⟩ := (hf.linked h (look_lt hn) n hn).parent p hp
          rw [List.mem_cons, not_or]
          refine ⟨?_, ih hup' hm⟩
          rintro rfl
          exact hx h ((parentIn_of_look hn).trans hp)

theorem WellFormed.depth_child (hf : f.WellFormed) (hn : f.look h = some n)
    (hp : n.parent = some p) : f.depth h = f.depth p + 1 := by
  obtain ⟨up, hup⟩ := hf.exists_ancestors hn
  obtain ⟨up', rfl, hup'⟩ := ancestors_cons hup hn hp
  rw [depth_of_ancestors hup, depth_of_ancestors hup', List.length_cons]

theorem WellFormed.depth_parentIn (hf : f.WellFormed) (hx : parentIn f.look x = some p) :
    f.depth x = f.depth p + 1 := by
  obtain ⟨n, hn, hp⟩ := Option.bind_eq_some_iff.mp hx
  exact hf.depth_child hn hp

def lineage (f : Forest) (h : Handle) : List Handle := h :: (f.ancestors h).toOption.getD []

theorem WellFormed.lineage_parentIn (hf : f.WellFormed) (hx : parentIn f.look x = some p) :
    f.lineage x = x :: f.lineage p := by
  obtain ⟨n, hn, hp⟩ := Option.bind_eq_some_iff.mp hx
  obtain ⟨up, hup⟩ := hf.exists_ancestors hn
  obtain ⟨up', rfl, hup'⟩ := ancestors_cons hup hn hp
  simp [lineage, hup, hup', Except.toOption]

theorem WellFormed.ranked (hf : f.WellFormed) : Ranked f.look f.depth where
  root := hf.root
  links := by
    intro x p
    constructor
    · intro hx
      obtain ⟨n, hn, hp⟩ := Option.bind_eq_some_iff.mp hx
      obtain ⟨m, hm, hbelow⟩ := (hf.linked x (look_lt hn) n hn).parent p hp
      rw [belowIn_of_look hm]
      exact List.mem_append.mpr hbelow
    · intro hx
      cases hp : f.look p with
      | none => simp [belowIn, hp] at hx
      | some n =>
          rw [belowIn_of_look hp, Node.below, List.mem_append] at hx
          have hlinked := hf.linked p (look_lt hp) n hp
          rcases hx with hx | hx
          · obtain ⟨m, hm, hparent⟩ := hlinked.children x hx
            exact (parentIn_of_look hm).trans hparent
          · obtain ⟨m, hm, hparent, -⟩ := hlinked.sides x hx
            exact (parentIn_of_look hm).trans hparent
  nodup := by
    intro p
    cases hp : f.look p with
    | none => simp [belowIn, hp]
    | some n =>
        have hlinked := hf.linked p (look_lt hp) n hp
        rw [belowIn_of_look hp, Node.below]
        rcases hlinked.container with hc | hc
        · rw [Kind.sides_of_container hc, List.append_nil]
          exact hlinked.nodup
        · rw [hc, List.nil_append]
          exact hlinked.distinct
  rises := by
    intro x p hx
    rw [hf.depth_parentIn hx]
    exact Nat.lt_succ_self _
  holds := fun h n hn => (hf.linked h (look_lt hn) n hn).container
  suits := by
    intro h n s m hn hs hm
    obtain ⟨m', hm', -, hsuits⟩ := (hf.linked h (look_lt hn) n hn).sides s hs
    cases hm.symm.trans hm'
    exact hsuits

/-- The number of nodes above a node, and more at and below `c`. -/
def raised (f : Forest) (c : Handle) (more : Nat) (h : Handle) : Nat :=
  if c ∈ f.lineage h then f.depth h + more else f.depth h

theorem WellFormed.ranked_raised (hf : f.WellFormed) (c : Handle) (more : Nat) :
    Ranked f.look (f.raised c more) := by
  apply hf.ranked.rerank
  intro x p hx
  have hup : c ∈ f.lineage p → c ∈ f.lineage x := by
    rw [hf.lineage_parentIn hx]
    exact List.mem_cons_of_mem x
  rw [raised, raised, hf.depth_parentIn hx]
  split_ifs with hp hx' <;> first | omega | exact absurd (hup hp) hx'

/-- There is a rank by which a node can be put below any other one that is not below it itself. -/
theorem WellFormed.exists_rank (hf : f.WellFormed) (hc : c ∉ f.lineage p) :
    ∃ ρ, Ranked f.look ρ ∧ ρ p < ρ c := by
  refine ⟨_, hf.ranked_raised c (f.depth p + 1), ?_⟩
  have hself : c ∈ f.lineage c := List.mem_cons_self
  rw [raised, raised, if_neg hc, if_pos hself]
  omega

theorem ranked_extend (hf : Ranked f.look ρ) {factor : Nat} (hfactor : 0 < factor)
    (new : Handle → Nat) : Ranked f.look fun x => if x < f.size then factor * ρ x else new x := by
  apply hf.spread hfactor
  intro x hx
  rw [if_pos]
  apply Nat.lt_of_not_le
  intro hle
  exact hx (.of_none (look_none hle))

theorem WellFormed.ranked_new (hf : f.WellFormed) {factor : Nat} (hfactor : 0 < factor)
    (new : Handle → Nat) :
    Ranked f.look fun x => if x < f.size then factor * f.depth x else new x :=
  ranked_extend hf.ranked hfactor new

end Forest

namespace Ranked

variable {f : Forest}

theorem chain (hf : Ranked f.look ρ) {seen : List Handle} (hd : (h :: seen).Nodup)
    (hs : ∀ x ∈ seen, x < f.size ∧ ρ h < ρ x) (hn : f.look h = some n) {room : Nat}
    (hroom : seen.length + room = f.size) : (f.ancestorsWithin room h).isOk = true := by
  induction room generalizing h n seen with
  | zero =>
      have hsub : h :: seen ⊆ List.range f.size := by
        intro x hx
        rcases List.mem_cons.mp hx with rfl | hx
        · exact List.mem_range.mpr (Forest.look_lt hn)
        · exact List.mem_range.mpr (hs x hx).1
      have hle := (List.subperm_of_subset hd hsub).length_le
      rw [List.length_cons, List.length_range] at hle
      omega
  | succ room ih =>
      simp only [Forest.ancestorsWithin, Forest.get_of_look hn, bind, Except.bind]
      cases hp : n.parent with
      | none => rfl
      | some p =>
          have hrise := hf.rises h p ((parentIn_of_look hn).trans hp)
          obtain ⟨m, hm, -⟩ := hf.exists_parent hn hp
          have hup : ∀ x ∈ h :: seen, x < f.size ∧ ρ p < ρ x := by
            intro x hx
            rcases List.mem_cons.mp hx with rfl | hx
            · exact ⟨Forest.look_lt hn, hrise⟩
            · exact ⟨(hs x hx).1, Nat.lt_trans hrise (hs x hx).2⟩
          have hok := ih (List.nodup_cons.mpr ⟨fun hx => Nat.lt_irrefl _ (hup p hx).2, hd⟩) hup hm
            (by simp only [List.length_cons]; omega)
          cases hanc : f.ancestorsWithin room p with
          | error e => simp [hanc, Except.isOk, Except.toBool] at hok
          | ok up => simp only [hanc]; rfl

theorem wellFormed (hf : Ranked f.look ρ) : f.WellFormed where
  root := hf.root
  linked := by
    intro h _ n hn
    have hn : f.look h = some n := hn
    have hd := hf.nodup h
    rw [belowIn_of_look hn, Node.below, List.nodup_append'] at hd
    have hbelow : ∀ x ∈ n.children ++ n.kind.sides, ∃ m, f.look x = some m ∧ m.parent = some h := by
      intro x hx
      apply Option.bind_eq_some_iff.mp
      apply (hf.links x h).mpr
      rw [belowIn_of_look hn]
      exact hx
    refine ⟨hf.holds h n hn, hd.1, ?_, ?_, hd.2.1, ?_⟩
    · intro c hc
      exact hbelow c (List.mem_append_left _ hc)
    · intro p hp
      obtain ⟨m, hm, hbelow⟩ := hf.exists_parent hn hp
      exact ⟨m, hm, List.mem_append.mp hbelow⟩
    · intro s hs
      obtain ⟨m, hm, hparent⟩ := hbelow s (List.mem_append_right _ hs)
      exact ⟨m, hm, hparent, hf.suits h n s m hn hs hm⟩
  chain := by
    intro h hh
    exact hf.chain (List.nodup_singleton h) (by simp) (Array.getElem?_eq_getElem hh) (by simp)

end Ranked

end Reconcile
