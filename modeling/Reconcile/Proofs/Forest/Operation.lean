import Reconcile.Proofs.Forest.DeepCopy
import Reconcile.Proofs.Forest.Replacement

namespace Reconcile

theorem Kind.canBeSideOf_headers {k : Kind} (hk : k.isScope = true) (labels : Labels) (l r : Handle) :
    k.canBeSideOf (.conflict .headers labels l r) = true := by
  cases k with
  | plain c =>
      cases c <;> first | rfl | cases hk
  | conflict => cases hk

namespace Forest

/-- What a tree is made by. -/
inductive Operation where
  | create (content : Content) (notes : Notes)
  | append (parent : Handle) (content : Content) (notes : Notes)
  | attach (parent child : Handle)
  | insert (parent : Handle) (index : Nat) (child : Handle)
  | detach (child : Handle)
  | replace (old new : Handle)
  | reorder (h : Handle) (order : List Handle)
  | wrapDeclarations (h : Handle) (labels : Labels)
  | wrapHeaders (scope header : Handle) (labels : Labels)
  | copyNode (source : Forest) (h : Handle)
  | copy (source : Forest) (h : Handle)

def Lists (f : Forest) (p h : Handle) : Prop := ∃ n ∈ f.look p, h ∈ n.children

def HoldsScope (f : Forest) (h : Handle) : Prop := ∃ n ∈ f.look h, n.kind.isScope = true

instance (f : Forest) (h : Handle) : Decidable (HasRoom f.look h) :=
  inferInstanceAs (Decidable (∃ n ∈ f.look h, n.kind.isContainer = true))

instance (f : Forest) (p h : Handle) : Decidable (f.Lists p h) :=
  inferInstanceAs (Decidable (∃ n ∈ f.look p, h ∈ n.children))

instance (f : Forest) (h : Handle) : Decidable (f.HoldsScope h) :=
  inferInstanceAs (Decidable (∃ n ∈ f.look h, n.kind.isScope = true))

namespace Operation

def run (f : Forest) : Operation → Except Fault Forest
  | create content notes => return (f.create (.plain content) notes).1
  | append parent content notes => return (← f.append parent content notes).1
  | attach parent child => f.attach parent child
  | insert parent index child => f.insert parent index child
  | detach child => f.detach child
  | replace old new => f.replace old new
  | reorder h order => f.reorder h order
  | wrapDeclarations h labels => return (← f.wrapDeclarations h labels).1
  | wrapHeaders scope header labels => return (← f.wrapHeaders scope header labels).1
  | copyNode source h => return (← f.graftNode (← source.outline h)).1
  | copy source h => return (← f.graft (← source.outline h)).1

/-- What an operation can be asked for. A node that gets a new parent is neither that parent nor above
it; a source of copies is well-formed, as every tree is that is made by operations. -/
def Allowed (f : Forest) : Operation → Prop
  | create _ _ => True
  | append parent _ _ => HasRoom f.look parent
  | attach parent child | insert parent _ child =>
      HasRoom f.look parent ∧ f.Movable child ∧ child ∉ f.lineage parent
  | detach child => f.Movable child
  | replace old new => ∃ p < f.size, f.Lists p old ∧ f.Movable new ∧ new ∉ f.lineage p
  | reorder h order => ∃ n ∈ f.look h, order.Perm n.children
  | wrapDeclarations h _ => ∃ p < f.size, f.Lists p h
  | wrapHeaders scope header _ => (∃ p < f.size, f.Lists p scope) ∧ f.HoldsScope scope ∧
      f.HoldsScope header ∧ f.parent header = .ok none ∧ header ∉ f.lineage scope
  | copyNode source h | copy source h => source.WellFormed ∧ h < source.size

instance (f : Forest) : (op : Operation) → Decidable (op.Allowed f)
  | create _ _ => inferInstanceAs (Decidable True)
  | append parent _ _ => inferInstanceAs (Decidable (HasRoom f.look parent))
  | attach parent child | insert parent _ child => inferInstanceAs
      (Decidable (HasRoom f.look parent ∧ f.Movable child ∧ child ∉ f.lineage parent))
  | detach child => inferInstanceAs (Decidable (f.Movable child))
  | replace old new => inferInstanceAs
      (Decidable (∃ p < f.size, f.Lists p old ∧ f.Movable new ∧ new ∉ f.lineage p))
  | reorder h order => inferInstanceAs (Decidable (∃ n ∈ f.look h, order.Perm n.children))
  | wrapDeclarations h _ => inferInstanceAs (Decidable (∃ p < f.size, f.Lists p h))
  | wrapHeaders scope header _ => inferInstanceAs (Decidable ((∃ p < f.size, f.Lists p scope) ∧
      f.HoldsScope scope ∧ f.HoldsScope header ∧ f.parent header = .ok none ∧
      header ∉ f.lineage scope))
  | copyNode source h | copy source h => inferInstanceAs
      (Decidable (source.WellFormed ∧ h < source.size))

/-- Whether each operation of a sequence is allowed when its turn comes. -/
def AllAllowed (f : Forest) : List Operation → Prop
  | [] => True
  | op :: ops => op.Allowed f ∧ ∀ f' ∈ (op.run f).toOption, AllAllowed f' ops

instance decidableAllAllowed (f : Forest) : (ops : List Operation) → Decidable (AllAllowed f ops)
  | [] => inferInstanceAs (Decidable True)
  | op :: ops =>
      have := fun f' => decidableAllAllowed f' ops
      inferInstanceAs (Decidable (op.Allowed f ∧ ∀ f' ∈ (op.run f).toOption, AllAllowed f' ops))

end Operation

variable {f : Forest} {h p c old new : Handle} {n m : Node}

namespace WellFormed

theorem insert (hf : f.WellFormed) (hp : HasRoom f.look p) (hc : f.Movable c) (hup : c ∉ f.lineage p)
    (i : Nat) : ∃ f', f.insert p i c = .ok f' ∧ f'.WellFormed := by
  obtain ⟨ρ, hρ, hlt⟩ := hf.exists_rank hup
  obtain ⟨f', he, hs, -⟩ := insert_look hρ hp (hf.loose hc) hlt i
  exact ⟨f', he, hs.ranked.wellFormed⟩

theorem attach (hf : f.WellFormed) (hp : HasRoom f.look p) (hc : f.Movable c) (hup : c ∉ f.lineage p) :
    ∃ f', f.attach p c = .ok f' ∧ f'.WellFormed := by
  obtain ⟨n, hn, -⟩ := id hp
  obtain ⟨f', he, hf'⟩ := hf.insert hp hc hup n.children.length
  refine ⟨f', ?_, hf'⟩
  simp only [Forest.attach, children_of_look hn, bind, Except.bind]
  exact he

theorem detach (hf : f.WellFormed) (hc : f.Movable c) : ∃ f', f.detach c = .ok f' ∧ f'.WellFormed := by
  obtain ⟨f', he, hs⟩ := detach_shifts hf.ranked (hf.loose hc)
  exact ⟨f', he, hs.ranked.wellFormed⟩

theorem replace (hf : f.WellFormed) (hold : f.Lists p old) (hnew : f.Movable new)
    (hup : new ∉ f.lineage p) : ∃ f', f.replace old new = .ok f' ∧ f'.WellFormed := by
  obtain ⟨n, hn, hmem⟩ := hold
  obtain ⟨before, after, hcs⟩ := List.append_of_mem hmem
  obtain ⟨ρ, hρ, hlt⟩ := hf.exists_rank hup
  obtain ⟨f', he, hf', -⟩ := replace_look hρ hn hcs (hf.loose hnew) hlt
  exact ⟨f', he, hf'.wellFormed⟩

theorem reorder (hf : f.WellFormed) (hn : f.look h = some n) {order : List Handle}
    (ho : order.Perm n.children) : ∃ f', f.reorder h order = .ok f' ∧ f'.WellFormed := by
  obtain ⟨f', he, -, hl⟩ := update_spec hn fun n => { n with children := order }
  exact ⟨f', he, (hl ▸ hf.ranked.reorder hn ho).wellFormed⟩

theorem stands_of_lists (hf : f.WellFormed) (hc : f.Lists p c) :
    ∃ m n before after, Stands f.look c m p n before after := by
  obtain ⟨n, hn, hmem⟩ := hc
  have hroom := hf.ranked.container_of_mem hn hmem
  obtain ⟨m, hm⟩ := (hf.ranked.loose_of_child hn hroom hmem).known
  obtain ⟨before, after, hs⟩ :=
    hf.exists_stands hm ((hf.ranked.child_iff hn hroom hm).mp hmem) hn hroom
  exact ⟨m, n, before, after, hs⟩

theorem wrapListed (hf : f.WellFormed) (hc : f.Lists p c) (labels : Labels) :
    ∃ f' k, f.wrapDeclarations c labels = .ok (f', k) ∧ f'.WellFormed := by
  obtain ⟨m, n, before, after, hs⟩ := hf.stands_of_lists hc
  obtain ⟨f', k, -, -, he, hf', -⟩ := hf.wrapDeclarations hs labels
  exact ⟨f', k, he, hf'⟩

theorem wrapScopes (hf : f.WellFormed) (hc : f.Lists p old) (hold : f.HoldsScope old)
    (hnew : f.HoldsScope new) (hp : f.parent new = .ok none) (hup : new ∉ f.lineage old)
    (labels : Labels) : ∃ f' k, f.wrapHeaders old new labels = .ok (f', k) ∧ f'.WellFormed := by
  obtain ⟨m, n, before, after, hs⟩ := hf.stands_of_lists hc
  obtain ⟨w, hw, hwk⟩ := hnew
  obtain ⟨m', hm', hmk⟩ := hold
  cases hm'.symm.trans hs.child
  rw [parent_of_look hw, Except.ok.injEq] at hp
  obtain ⟨f', he, hf', -⟩ := hf.wrapHeaders_look hs hw hp hup labels
    (Kind.canBeSideOf_headers hmk labels old new)
    (Kind.canBeSideOf_headers hwk labels old new)
  exact ⟨f', f.size, he, hf'⟩

theorem copySubtree (hf : f.WellFormed) {source : Forest} (hs : source.WellFormed)
    (hh : h < source.size) :
    ∃ x f' k, source.outline h = .ok x ∧ f.graft x = .ok (f', k) ∧ f'.WellFormed := by
  obtain ⟨x, hx, -, -, hsound⟩ := hs.exists_outline (Array.getElem?_eq_getElem hh)
  obtain ⟨f', ρ, k, he, hgrafts, -⟩ := graftable_of_sound hsound 0 hf.ranked
  exact ⟨x, f', k, hx, he, hgrafts.ranked.wellFormed⟩

theorem copyAlone (hf : f.WellFormed) {source : Forest} (hs : source.WellFormed)
    (hh : h < source.size) :
    ∃ x f' k, source.outline h = .ok x ∧ f.graftNode x = .ok (f', k) ∧ f'.WellFormed := by
  obtain ⟨x, f', k, hx, he, hf'⟩ := hf.copySubtree hs hh
  refine ⟨x, ?_⟩
  cases x with
  | node handle content notes children =>
      exact ⟨_, _, hx, rfl, (hf.create (c := Forest.root) rfl).1⟩
  | conflict => exact ⟨f', k, hx, he, hf'⟩

/-- An operation succeeds if it is allowed, and the forest is still well-formed. -/
theorem operate (hf : f.WellFormed) {op : Operation} (ha : op.Allowed f) :
    ∃ f', op.run f = .ok f' ∧ f'.WellFormed := by
  cases op with
  | create content notes => exact ⟨_, rfl, (hf.create (c := Forest.root) rfl).1⟩
  | append parent content notes =>
      obtain ⟨n, hn, hroom⟩ := ha
      obtain ⟨f', he, hf', -⟩ := hf.append (c := Forest.root) hn hroom content notes
      exact ⟨f', by simp only [Operation.run, he]; rfl, hf'⟩
  | attach parent child => exact hf.attach ha.1 ha.2.1 ha.2.2
  | insert parent index child => exact hf.insert ha.1 ha.2.1 ha.2.2 index
  | detach child => exact hf.detach ha
  | replace old new =>
      obtain ⟨p, -, hold, hnew, hup⟩ := ha
      exact hf.replace hold hnew hup
  | reorder h order =>
      obtain ⟨n, hn, ho⟩ := ha
      exact hf.reorder hn ho
  | wrapDeclarations h labels =>
      obtain ⟨p, -, hc⟩ := ha
      obtain ⟨f', k, he, hf'⟩ := hf.wrapListed hc labels
      exact ⟨f', by simp only [Operation.run, he]; rfl, hf'⟩
  | wrapHeaders scope header labels =>
      obtain ⟨⟨p, -, hc⟩, hs, hh, hp, hup⟩ := ha
      obtain ⟨f', k, he, hf'⟩ := hf.wrapScopes hc hs hh hp hup labels
      exact ⟨f', by simp only [Operation.run, he]; rfl, hf'⟩
  | copyNode source h =>
      obtain ⟨x, f', k, hx, he, hf'⟩ := hf.copyAlone ha.1 ha.2
      exact ⟨f', by simp only [Operation.run, hx, bind, Except.bind, he]; rfl, hf'⟩
  | copy source h =>
      obtain ⟨x, f', k, hx, he, hf'⟩ := hf.copySubtree ha.1 ha.2
      exact ⟨f', by simp only [Operation.run, hx, bind, Except.bind, he]; rfl, hf'⟩

theorem operateAll (hf : f.WellFormed) {done todo : List Operation}
    (ha : Operation.AllAllowed f (done ++ todo)) :
    ∃ f', done.foldlM Operation.run f = .ok f' ∧ f'.WellFormed ∧ Operation.AllAllowed f' todo := by
  induction done generalizing f with
  | nil => exact ⟨f, rfl, hf, ha⟩
  | cons op done ih =>
      obtain ⟨f₁, he₁, hf₁⟩ := hf.operate ha.1
      obtain ⟨f', he, hf', ha'⟩ := ih hf₁ (ha.2 f₁ (by rw [he₁]; rfl))
      refine ⟨f', ?_, hf', ha'⟩
      rw [List.foldlM_cons, he₁]
      exact he

theorem short_ancestors (hf : f.WellFormed) (hh : h < f.size) :
    ∃ up, f.ancestors h = .ok up ∧ up.length < f.size := by
  obtain ⟨up, hup⟩ := hf.exists_ancestors (Array.getElem?_eq_getElem hh)
  exact ⟨up, hup, length_ancestorsWithin hup⟩

theorem nodup_descendants (hf : f.WellFormed) :
    ∃ below, f.descendants Forest.root = .ok below ∧ (Forest.root :: below).Nodup := by
  obtain ⟨o, ho⟩ := hf.exists_shows
  refine ⟨o.descendants, ?_, ?_⟩
  · rw [descendants, ho.outline]
    rfl
  · rw [← ho.root]
    exact ho.nodup

end WellFormed

theorem wellFormed_empty : empty.WellFormed := by decide

/-- A tree is well-formed after every operation of a sequence that is allowed from the start. -/
theorem operations_keep_wellFormed {ops : List Operation} (ha : Operation.AllAllowed empty ops)
    {done : List Operation} (hd : done.IsPrefix ops) :
    ∃ f, done.foldlM Operation.run empty = .ok f ∧ f.WellFormed ∧
      (∀ h < f.size, ∃ up, f.ancestors h = .ok up ∧ up.length < f.size) ∧
      ∃ below, f.descendants root = .ok below ∧ (root :: below).Nodup := by
  obtain ⟨todo, rfl⟩ := hd
  obtain ⟨f, he, hf, -⟩ := wellFormed_empty.operateAll ha
  exact ⟨f, he, hf, fun h hh => hf.short_ancestors hh, hf.nodup_descendants⟩

def everyOperation : List Operation :=
  let labels : Labels := ⟨"left", "right"⟩
  let scope (name : String) : Content := .scope (.classNamed name none)
  let constant (name : String) : Content := .leaf (.constant name "1")
  [.append 0 (scope "A") {}, .append 1 (constant "X") {}, .create (constant "Y") {}, .attach 0 3,
    .insert 1 0 3, .detach 3, .append 0 (constant "Z") {}, .replace 4 3, .reorder 0 [3, 1],
    .wrapDeclarations 3 labels, .create (scope "A") {}, .wrapHeaders 1 8 labels,
    .copyNode rivalHeaders 2, .copy rivalHeaders 1, .attach 10 14, .attach 0 10]

theorem operations_keep_wellFormed_everyOperation : Operation.AllAllowed empty everyOperation ∧
    ∃ f, everyOperation.foldlM Operation.run empty = .ok f ∧ f.WellFormed ∧
      ∃ below, f.descendants root = .ok below ∧ (root :: below).Nodup := by
  have ha : Operation.AllAllowed empty everyOperation := by decide
  obtain ⟨f, he, hf, -, hbelow⟩ := operations_keep_wellFormed ha (List.prefix_refl _)
  exact ⟨ha, f, he, hf, hbelow⟩

end Forest

end Reconcile
