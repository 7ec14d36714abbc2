import Mathlib.Data.List.Nodup
import Mathlib.Logic.Function.Basic
import Reconcile.Forest.Edit

namespace Reconcile.Forest

open Function (update_self update_of_ne update_comm update_idem)

def look (f : Forest) : Handle → Option Node := fun h => f.nodes[h]?

variable {f : Forest} {h p c : Handle} {n m : Node}

theorem look_lt (hn : f.look h = some n) : h < f.size :=
  (Array.getElem?_eq_some_iff.mp hn).1

theorem look_none (hh : f.size ≤ h) : f.look h = none :=
  Array.getElem?_eq_none hh

theorem eq_of_look {g : Forest} (h : f.look = g.look) : f = g := by
  obtain ⟨ns⟩ := f
  obtain ⟨ms⟩ := g
  rw [mk.injEq]
  exact Array.ext_getElem? fun i => congrFun h i

theorem get_of_look (hn : f.look h = some n) : f.get h = .ok n := by
  have hn : f.nodes[h]? = some n := hn
  simp only [get, hn]

theorem kind_of_look (hn : f.look h = some n) : f.kind h = .ok n.kind := by
  simp only [kind, get_of_look hn]; rfl

theorem children_of_look (hn : f.look h = some n) : f.children h = .ok n.children := by
  simp only [children, get_of_look hn]; rfl

theorem parent_of_look (hn : f.look h = some n) : f.parent h = .ok n.parent := by
  simp only [parent, get_of_look hn]; rfl

theorem size_modify (f : Forest) (h : Handle) (g : Node → Node) : (f.modify h g).size = f.size := by
  unfold modify
  split <;> simp [size]

theorem look_modify (hn : f.look h = some n) (g : Node → Node) :
    (f.modify h g).look = Function.update f.look h (some (g n)) := by
  have hn : f.nodes[h]? = some n := hn
  have hh : h < f.nodes.size := look_lt hn
  funext k
  simp only [modify, hn, look]
  by_cases hk : k = h
  · subst k
    simp [hh]
  · rw [update_of_ne hk, Array.getElem?_setIfInBounds_ne (Ne.symm hk), look]

theorem update_of_look (hn : f.look h = some n) (g : Node → Node) :
    f.update h g = .ok (f.modify h g) := by
  simp only [Forest.update, get_of_look hn]; rfl

theorem update_spec (hn : f.look h = some n) (g : Node → Node) :
    ∃ f', f.update h g = .ok f' ∧ f'.size = f.size ∧ f'.look = Function.update f.look h (some (g n)) :=
  ⟨_, update_of_look hn g, size_modify f h g, look_modify hn g⟩

theorem create_spec (f : Forest) (kind : Kind) (notes : Notes) :
    ∃ f', f.create kind notes = (f', f.size) ∧ f'.size = f.size + 1 ∧
      f'.look = Function.update f.look f.size (some ⟨kind, notes, none, []⟩) := by
  refine ⟨_, rfl, by simp [size], ?_⟩
  funext k
  by_cases hk : k = f.size
  · subst k
    simp [look, size]
  · have hk : ¬ k = f.nodes.size := hk
    simp [look, size, Array.getElem?_push, hk]

theorem look_old {f' : Forest} {v : Option Node} (hl : f'.look = Function.update f.look f.size v) :
    ∀ k < f.size, f'.look k = f.look k := by
  intro k hk
  rw [hl, update_of_ne (Nat.ne_of_lt hk)]

theorem look_created {f' : Forest} {kind : Kind} {notes : Notes} {k : Handle}
    (he : f.create kind notes = (f', k)) (hn : f.look h = some n) : f'.look h = some n := by
  obtain ⟨f₁, he₁, -, hl⟩ := create_spec f kind notes
  cases he.symm.trans he₁
  rw [look_old hl h (look_lt hn), hn]

theorem detach_root (hc : f.look c = some m) (hm : m.parent = none) : f.detach c = .ok f := by
  simp only [detach, get_of_look hc, bind, Except.bind, hm]
  rfl

theorem detach_spec (hc : f.look c = some m) (hm : m.parent = some p) (hp : f.look p = some n)
    (hne : p ≠ c) :
    ∃ f', f.detach c = .ok f' ∧ f'.size = f.size ∧
      f'.look = Function.update (Function.update f.look c (some { m with parent := none })) p
        (some { n with children := n.children.filter (· != c) }) := by
  have hl := look_modify hc fun n => { n with parent := none }
  have hp' : (f.modify c fun n => { n with parent := none }).look p = some n := by
    rw [hl, update_of_ne hne, hp]
  obtain ⟨f', he, hs, hl'⟩ := update_spec hp' fun n =>
    { n with children := n.children.filter (· != c) }
  refine ⟨f', ?_, by rw [hs, size_modify], by rw [hl', hl]⟩
  simp only [detach, get_of_look hc, bind, Except.bind, hm]
  exact he

theorem insert_spec (hp : f.look p = some n) (hn : n.kind.isContainer = true) (hc : f.look c = some m)
    (hm : m.parent = none) (hne : p ≠ c) (i : Nat) :
    ∃ f', f.insert p i c = .ok f' ∧ f'.size = f.size ∧
      f'.look = Function.update (Function.update f.look p
        (some { n with children := n.children.take i ++ c :: n.children.drop i })) c
        (some { m with parent := some p }) := by
  obtain ⟨f₁, he₁, hs₁, hl₁⟩ := update_spec hp fun n =>
    { n with children := n.children.take i ++ c :: n.children.drop i }
  have hc₁ : f₁.look c = some m := by rw [hl₁, update_of_ne (Ne.symm hne), hc]
  obtain ⟨f₂, he₂, hs₂, hl₂⟩ := update_spec hc₁ fun n => { n with parent := some p }
  refine ⟨f₂, ?_, hs₂.trans hs₁, by rw [hl₂, hl₁]⟩
  simp only [insert, kind_of_look hp, bind, Except.bind, hn, detach_root hc hm, he₁]
  exact he₂

theorem attach_spec (hp : f.look p = some n) (hn : n.kind.isContainer = true) (hc : f.look c = some m)
    (hm : m.parent = none) (hne : p ≠ c) :
    ∃ f', f.attach p c = .ok f' ∧ f'.size = f.size ∧
      f'.look = Function.update (Function.update f.look p (some { n with children := n.children ++ [c] })) c
        (some { m with parent := some p }) := by
  obtain ⟨f', he, hs, hl⟩ := insert_spec hp hn hc hm hne n.children.length
  refine ⟨f', ?_, hs, by simpa using hl⟩
  simp only [attach, children_of_look hp, bind, Except.bind]
  exact he

theorem append_spec (hp : f.look p = some n) (hn : n.kind.isContainer = true) (content : Content)
    (notes : Notes) :
    ∃ f', f.append p content notes = .ok (f', f.size) ∧ f'.size = f.size + 1 ∧
      f'.look = Function.update (Function.update f.look p (some { n with children := n.children ++ [f.size] })) f.size
        (some ⟨.plain content, notes, some p, []⟩) := by
  obtain ⟨f₁, he₁, hs₁, hl₁⟩ := create_spec f (.plain content) notes
  have hne : p ≠ f.size := Nat.ne_of_lt (look_lt hp)
  have hp₁ : f₁.look p = some n := by rw [hl₁, update_of_ne hne, hp]
  have hc₁ : f₁.look f.size = some ⟨.plain content, notes, none, []⟩ := by rw [hl₁, update_self]
  obtain ⟨f₂, he₂, hs₂, hl₂⟩ := attach_spec hp₁ hn hc₁ rfl hne
  refine ⟨f₂, ?_, hs₂.trans hs₁, ?_⟩
  · simp only [append, he₁, he₂, bind, Except.bind]; rfl
  · rw [hl₂, hl₁, update_comm hne, update_idem, update_comm hne]

theorem move_spec {q : Handle} {k : Node} (hp : f.look p = some n) (hn : n.kind.isContainer = true)
    (hc : f.look c = some m) (hm : m.parent = some q) (hq : f.look q = some k) (hqc : q ≠ c)
    (hpc : p ≠ c) (hqp : q ≠ p) :
    ∃ f', f.attach p c = .ok f' ∧ f'.size = f.size ∧
      f'.look = Function.update (Function.update (Function.update f.look q
        (some { k with children := k.children.filter (· != c) })) p
        (some { n with children := n.children ++ [c] })) c (some { m with parent := some p }) := by
  obtain ⟨f₁, he₁, hs₁, hl₁⟩ := detach_spec hc hm hq hqc
  have hp₁ : f₁.look p = some n := by rw [hl₁, update_of_ne (Ne.symm hqp), update_of_ne hpc, hp]
  have hc₁ : f₁.look c = some { m with parent := none } := by
    rw [hl₁, update_of_ne (Ne.symm hqc), update_self]
  obtain ⟨f₂, he₂, hs₂, hl₂⟩ := insert_spec hp₁ hn hc₁ rfl hpc n.children.length
  refine ⟨f₂, ?_, hs₂.trans hs₁, ?_⟩
  · simp only [attach, children_of_look hp, bind, Except.bind]
    simp only [insert, kind_of_look hp₁, detach_root hc₁ rfl, bind, Except.bind] at he₂
    simp only [insert, kind_of_look hp, he₁, bind, Except.bind]
    exact he₂
  · rw [hl₂, hl₁]
    simp only [List.take_length, List.drop_length]
    funext x
    by_cases hx : x = c
    · subst x; simp only [update_self]
    · simp only [Function.update_apply, hx, if_false]

theorem idxOf?_middle {before after : List Handle} (hb : c ∉ before) :
    (before ++ c :: after).idxOf? c = some before.length := by
  induction before with
  | nil => simp [List.idxOf?_cons]
  | cons b bs ih =>
      simp only [List.mem_cons, not_or] at hb
      simp [List.idxOf?_cons, Ne.symm hb.1, ih hb.2]

theorem filter_ne_eq_self {l : List Handle} (hc : c ∉ l) : l.filter (· != c) = l := by
  rw [List.filter_eq_self]
  intro a ha
  simpa using ne_of_mem_of_not_mem ha hc

theorem filter_middle {before after : List Handle} (hb : c ∉ before) (ha : c ∉ after) :
    (before ++ c :: after).filter (· != c) = before ++ after := by
  rw [List.filter_append, List.filter_cons_of_neg (by simp), filter_ne_eq_self hb,
    filter_ne_eq_self ha]

theorem replace_spec {q : Handle} {k : Node} {before after : List Handle}
    (hc : f.look c = some m) (hm : m.parent = some p) (hp : f.look p = some n)
    (hn : n.kind.isContainer = true) (hcs : n.children = before ++ c :: after)
    (hb : c ∉ before) (ha : c ∉ after) (hq : f.look q = some k) (hk : k.parent = none)
    (hpc : p ≠ c) (hpq : p ≠ q) (hqc : q ≠ c) :
    ∃ f', f.replace c q = .ok f' ∧ f'.size = f.size ∧
      f'.look = Function.update (Function.update (Function.update f.look c
        (some { m with parent := none })) p (some { n with children := before ++ q :: after })) q
        (some { k with parent := some p }) := by
  obtain ⟨f₁, he₁, hs₁, hl₁⟩ := detach_spec hc hm hp hpc
  have hp₁ : f₁.look p = some { n with children := before ++ after } := by
    rw [hl₁, update_self, hcs, filter_middle hb ha]
  have hq₁ : f₁.look q = some k := by
    rw [hl₁, update_of_ne (Ne.symm hpq), update_of_ne hqc, hq]
  obtain ⟨f₂, he₂, hs₂, hl₂⟩ := insert_spec hp₁ hn hq₁ hk hpq before.length
  have hpos : f.position c = .ok (some before.length) := by
    simp only [position, get_of_look hc, bind, Except.bind, hm, children_of_look hp, hcs,
      idxOf?_middle hb]
    rfl
  refine ⟨f₂, ?_, hs₂.trans hs₁, ?_⟩
  · simp only [replace, get_of_look hc, bind, Except.bind, hm, hpos, he₁]
    exact he₂
  · rw [hl₂, hl₁, update_idem]
    simp

theorem adopt_spec (hc : f.look c = some m) (hm : m.parent = none) (owner : Handle) :
    ∃ f', f.adopt owner c = .ok f' ∧ f'.size = f.size ∧
      f'.look = Function.update f.look c (some { m with parent := some owner }) := by
  obtain ⟨f', he, hs, hl⟩ := update_spec hc fun n => { n with parent := some owner }
  refine ⟨f', ?_, hs, hl⟩
  simp only [adopt, detach_root hc hm, bind, Except.bind]
  exact he

theorem wrapHeaders_spec {q : Handle} {k : Node} {before after : List Handle} (labels : Labels)
    (hc : f.look c = some m) (hm : m.parent = some p) (hp : f.look p = some n)
    (hn : n.kind.isContainer = true) (hcs : n.children = before ++ c :: after)
    (hb : c ∉ before) (ha : c ∉ after) (hq : f.look q = some k) (hk : k.parent = none)
    (hpc : p ≠ c) (hpq : p ≠ q) (hqc : q ≠ c) :
    ∃ f', f.wrapHeaders c q labels = .ok (f', f.size) ∧ f'.size = f.size + 1 ∧
      f'.look = Function.update (Function.update (Function.update (Function.update f.look p
        (some { n with children := before ++ f.size :: after })) f.size
        (some ⟨.conflict .headers labels c q, {}, some p, []⟩)) c
        (some { m with parent := some f.size })) q (some { k with parent := some f.size }) := by
  have hcf : c ≠ f.size := Nat.ne_of_lt (look_lt hc)
  have hpf : p ≠ f.size := Nat.ne_of_lt (look_lt hp)
  have hqf : q ≠ f.size := Nat.ne_of_lt (look_lt hq)
  obtain ⟨f₁, he₁, hs₁, hl₁⟩ := create_spec f (.conflict .headers labels c q) {}
  have hx₁ : f₁.look f.size = some ⟨.conflict .headers labels c q, {}, none, []⟩ := by
    rw [hl₁, update_self]
  obtain ⟨f₂, he₂, hs₂, hl₂⟩ := replace_spec (by rw [hl₁, update_of_ne hcf, hc]) hm
    (by rw [hl₁, update_of_ne hpf, hp]) hn hcs hb ha hx₁ rfl hpc hpf (Ne.symm hcf)
  have hc₂ : f₂.look c = some { m with parent := none } := by
    rw [hl₂, update_of_ne hcf, update_of_ne (Ne.symm hpc), update_self]
  obtain ⟨f₃, he₃, hs₃, hl₃⟩ := adopt_spec hc₂ rfl f.size
  have hq₃ : f₃.look q = some k := by
    rw [hl₃, update_of_ne hqc, hl₂, update_of_ne hqf, update_of_ne (Ne.symm hpq), update_of_ne hqc,
      hl₁, update_of_ne hqf, hq]
  obtain ⟨f₄, he₄, hs₄, hl₄⟩ := adopt_spec hq₃ hk f.size
  refine ⟨f₄, ?_, by omega, ?_⟩
  · simp only [wrapHeaders, he₁, he₂, he₃, he₄, bind, Except.bind]; rfl
  · rw [hl₄, hl₃, hl₂, hl₁]
    funext x
    simp only [Function.update_apply]
    split_ifs <;> simp_all

theorem wrapDeclarations_spec {before after : List Handle} (labels : Labels)
    (hc : f.look c = some m) (hm : m.parent = some p) (hp : f.look p = some n)
    (hn : n.kind.isContainer = true) (hcs : n.children = before ++ c :: after)
    (hb : c ∉ before) (ha : c ∉ after) (hpc : p ≠ c) :
    ∃ f', f.wrapDeclarations c labels = .ok (f', f.size + 2) ∧ f'.size = f.size + 3 ∧
      f'.look = Function.update (Function.update (Function.update (Function.update
        (Function.update f.look p (some { n with children := before ++ (f.size + 2) :: after }))
        (f.size + 2) (some ⟨.conflict .declarations labels f.size (f.size + 1), {}, some p, []⟩))
        f.size (some ⟨.plain .tree, {}, some (f.size + 2), [c]⟩))
        (f.size + 1) (some ⟨.plain .tree, {}, some (f.size + 2), []⟩)) c
        (some { m with parent := some f.size }) := by
  have hcl := look_lt hc
  have hpl := look_lt hp
  obtain ⟨f₁, he₁, hs₁, hl₁⟩ := create_spec f (.plain .tree) {}
  obtain ⟨f₂, he₂, hs₂, hl₂⟩ := create_spec f₁ (.plain .tree) {}
  obtain ⟨f₃, he₃, hs₃, hl₃⟩ := create_spec f₂ (.conflict .declarations labels f.size (f.size + 1)) {}
  rw [hs₁] at he₂ hl₂
  rw [hs₂, hs₁] at he₃ hl₃
  have old (x : Nat) (hx : x < f.size) : x ≠ f.size ∧ x ≠ f.size + 1 ∧ x ≠ f.size + 2 :=
    ⟨by omega, by omega, by omega⟩
  have look₃ (x : Nat) (hx : x < f.size) : f₃.look x = f.look x := by
    simp [hl₃, hl₂, hl₁, old x hx]
  have left₃ : f₃.look f.size = some ⟨.plain .tree, {}, none, []⟩ := by
    simp [hl₃, hl₂, hl₁, Nat.add_assoc]
  have right₃ : f₃.look (f.size + 1) = some ⟨.plain .tree, {}, none, []⟩ := by
    simp [hl₃, hl₂]
  obtain ⟨f₄, he₄, hs₄, hl₄⟩ := adopt_spec left₃ rfl (f.size + 2)
  have right₄ : f₄.look (f.size + 1) = some ⟨.plain .tree, {}, none, []⟩ := by
    simp [hl₄, right₃]
  obtain ⟨f₅, he₅, hs₅, hl₅⟩ := adopt_spec right₄ rfl (f.size + 2)
  have look₅ (x : Nat) (hx : x < f.size) : f₅.look x = f.look x := by
    simp [hl₅, hl₄, look₃ x hx, old x hx]
  have conflict₅ : f₅.look (f.size + 2) =
      some ⟨.conflict .declarations labels f.size (f.size + 1), {}, none, []⟩ := by
    simp [hl₅, hl₄, hl₃]
  obtain ⟨f₆, he₆, hs₆, hl₆⟩ := replace_spec (by rw [look₅ c hcl, hc]) hm
    (by rw [look₅ p hpl, hp]) hn hcs hb ha conflict₅ rfl hpc (old p hpl).2.2
    (Ne.symm (old c hcl).2.2)
  have left₆ : f₆.look f.size = some ⟨.plain .tree, {}, some (f.size + 2), []⟩ := by
    simp [hl₆, hl₅, hl₄, Ne.symm (old p hpl).1, Ne.symm (old c hcl).1]
  have child₆ : f₆.look c = some { m with parent := none } := by
    simp [hl₆, Ne.symm hpc, (old c hcl).2.2]
  obtain ⟨f₇, he₇, hs₇, hl₇⟩ := attach_spec left₆ rfl child₆ rfl (Ne.symm (old c hcl).1)
  refine ⟨f₇, ?_, by omega, ?_⟩
  · simp only [wrapDeclarations, he₁, he₂, he₃, he₄, he₅, he₆, he₇, bind, Except.bind]; rfl
  · rw [hl₇, hl₆, hl₅, hl₄, hl₃, hl₂, hl₁]
    funext x
    simp only [Function.update_apply]
    split_ifs <;> first | rfl | grind

end Reconcile.Forest
