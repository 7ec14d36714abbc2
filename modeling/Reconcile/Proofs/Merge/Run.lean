import Reconcile.Merge.Fold
import Reconcile.Proofs.Forest.WellFormed
import Reconcile.Proofs.Merge.Depiction
import Reconcile.Proofs.Sequencing

namespace Reconcile

open Merge (Event)

namespace Outline

mutual

/-- The events of an outline, each with the name of the scope that it is in. -/
def script (outer : String) : Outline → List (String × Event)
  | node _ (.scope s) notes children =>
      (outer, .enter s notes) :: scriptOfAll (s.qualify outer) children ++
        [(s.qualify outer, .leave)]
  | node _ (.leaf l) notes _ => [(outer, .declare l notes)]
  | node _ _ notes children => (outer, .remark notes.comments) :: scriptOfAll outer children
  | conflict h form labels notes left right =>
      [(outer, .carry (.conflict h form labels notes left right))]

def scriptOfAll (outer : String) : List Outline → List (String × Event)
  | [] => []
  | o :: os => o.script outer ++ scriptOfAll outer os

end

@[simp] theorem scriptOfAll_eq (outer : String) (os : List Outline) :
    scriptOfAll outer os = os.flatMap (script outer) := by
  induction os with
  | nil => rfl
  | cons o os ih => simp [scriptOfAll, ih]

theorem eventsOfAll_eq (os : List Outline) : eventsOfAll os = os.flatMap events := by
  induction os with
  | nil => rfl
  | cons o os ih => simp [eventsOfAll, ih]

theorem map_snd_script (outer : String) (o : Outline) : (o.script outer).map (·.2) = o.events := by
  induction o generalizing outer with
  | node h c n cs ih =>
      have hcs (outer : String) : (cs.flatMap (script outer)).map (·.2) = eventsOfAll cs := by
        rw [eventsOfAll_eq, List.map_flatMap]
        exact List.flatMap_congr fun o ho => ih o ho outer
      cases c <;> simp [script, events, hcs]
  | conflict => rfl

end Outline

namespace Merge

inductive Runs (o : Options) : Draft → List (String × Event) → Draft → Prop
  | nil (P : Draft) : Runs o P [] P
  | cons {P Q R : Draft} {e : Event} {es : List (String × Event)} (hs : Step o P e Q)
      (hr : Runs o Q es R) : Runs o P ((P.name, e) :: es) R

variable {o : Options} {s : State} {P Q R : Draft} {e : Event} {es es' : List (String × Event)}

namespace Runs

theorem single (hs : Step o P e Q) : Runs o P [(P.name, e)] Q := .cons hs (.nil Q)

theorem append (h : Runs o P es Q) (h' : Runs o Q es' R) : Runs o P (es ++ es') R := by
  induction h with
  | nil => exact h'
  | cons hs _ ih => exact .cons hs (ih h')

theorem valid (h : Runs o P es Q) (hv : P.Valid) : Q.Valid := by
  induction h with
  | nil => exact hv
  | cons hs _ ih => exact ih (hs.valid hv)

/-- What holds at the start and is kept by every step holds at the end. -/
theorem invariant {I : Draft → Prop} (h : Runs o P es Q) (hv : P.Valid)
    (keep : ∀ {P Q e}, P.Valid → Step o P e Q → I P → I Q) (hi : I P) : I Q := by
  induction h with
  | nil => exact hi
  | cons hs _ ih => exact ih (hs.valid hv) (keep hv hs hi)

/-- What an event brings about and every step keeps holds at the end. -/
theorem reaches {I : Draft → Prop} {name : String} (h : Runs o P es Q) (hv : P.Valid)
    (hm : (name, e) ∈ es) (start : ∀ {P Q}, P.Valid → P.name = name → Step o P e Q → I Q)
    (keep : ∀ {P Q e}, P.Valid → Step o P e Q → I P → I Q) : I Q := by
  induction h with
  | nil => cases hm
  | cons hs hr ih =>
      rcases List.mem_cons.mp hm with heq | hm
      · cases heq
        exact hr.invariant (hs.valid hv) keep (start hv rfl hs)
      · exact ih (hs.valid hv) hm

theorem depicts (h : Runs o P es Q) (hd : s.Depicts P) (hv : P.Valid) :
    ∃ s', s.run o (es.map (·.2)) = .ok s' ∧ s'.Depicts Q := by
  induction h generalizing s with
  | nil => exact ⟨s, rfl, hd⟩
  | cons hs _ ih =>
      obtain ⟨s₁, he₁, hd₁⟩ := hs.depicts hd hv.standing
      obtain ⟨s', he, hd'⟩ := ih hd₁ (hs.valid hv)
      refine ⟨s', ?_, hd'⟩
      rw [State.run] at he ⊢
      rw [List.map_cons, List.foldlM_cons, he₁]
      exact he

end Runs

theorem Step.entered_enter {scope : Scope} {n : Notes} (hs : Step o P (.enter scope n) Q) :
    ∃ h, Q.entered = (h, scope.qualify P.name) :: P.entered := by
  cases hs <;> exact ⟨_, rfl⟩

theorem Step.entered_declare {l : Leaf} {n : Notes} (hs : Step o P (.declare l n) Q) :
    Q.entered = P.entered := by
  cases hs <;> rfl

theorem Step.entered_remark {comments : List String} (hs : Step o P (.remark comments) Q) :
    Q.entered = P.entered := by
  cases hs
  rfl

theorem name_eq (h : Q.entered = P.entered) : Q.name = P.name := by
  rw [Draft.name, Draft.name, h]

theorem exists_runs_all {os : List Outline} (hv : P.Valid)
    (hos : ∀ x ∈ os, ∀ {P : Draft}, P.Valid →
      ∃ Q, Runs o P (x.script P.name) Q ∧ Q.Valid ∧ Q.entered = P.entered) :
    ∃ Q, Runs o P (os.flatMap (Outline.script P.name)) Q ∧ Q.Valid ∧ Q.entered = P.entered := by
  induction os generalizing P with
  | nil => exact ⟨P, .nil P, hv, rfl⟩
  | cons x os ih =>
      obtain ⟨Q, hr, hvQ, he⟩ := hos x (by simp) hv
      obtain ⟨R, hr', hvR, he'⟩ := ih hvQ fun y hy => hos y (by simp [hy])
      rw [name_eq he] at hr'
      exact ⟨R, hr.append hr', hvR, he'.trans he⟩

theorem exists_runs (hk : o.keep ≠ .right) {x : Outline} (hc : x.conflictFree = true) {P : Draft}
    (hv : P.Valid) : ∃ Q, Runs o P (x.script P.name) Q ∧ Q.Valid ∧ Q.entered = P.entered := by
  induction x generalizing P with
  | conflict => cases hc
  | node h c n cs ih =>
      rw [Outline.conflictFree_node] at hc
      have hcs {P : Draft} (hv : P.Valid) := exists_runs_all (o := o) hv fun x hx P hv =>
        ih x hx (hc x hx) (P := P) hv
      cases c with
      | scope s =>
          obtain ⟨Q, hs⟩ := exists_step (o := o) hv.standing hk (e := .enter s n) rfl
          obtain ⟨k, hen⟩ := hs.entered_enter
          have hname : Q.name = s.qualify P.name := by simp [Draft.name, hen]
          obtain ⟨R, hr, hvR, he⟩ := hcs (hs.valid hv)
          have hleave := Runs.single (Step.left (o := o) (P := R))
          rw [name_eq he, hname] at hleave
          rw [hname] at hr
          refine ⟨_, ?_, hleave.valid hvR, ?_⟩
          · simpa [Outline.script] using Runs.cons hs (hr.append hleave)
          · simp [he, hen]
      | leaf l =>
          obtain ⟨Q, hs⟩ := exists_step (o := o) hv.standing hk (e := .declare l n) rfl
          exact ⟨Q, .single hs, hs.valid hv, hs.entered_declare⟩
      | tree | visibilityGroup | group =>
          obtain ⟨Q, hs⟩ := exists_step (o := o) hv.standing hk (e := .remark n.comments) rfl
          obtain ⟨R, hr, hvR, he⟩ := hcs (hs.valid hv)
          rw [name_eq hs.entered_remark] at hr
          refine ⟨R, ?_, hvR, he.trans hs.entered_remark⟩
          simpa [Outline.script] using Runs.cons hs hr

theorem exists_runs_list (hk : o.keep ≠ .right) {os : List Outline}
    (hc : ∀ x ∈ os, x.conflictFree = true) {P : Draft} (hv : P.Valid) :
    ∃ Q, Runs o P (os.flatMap (Outline.script P.name)) Q ∧ Q.Valid ∧ Q.entered = P.entered :=
  exists_runs_all hv fun x hx _ hv => exists_runs hk (hc x hx) hv

def readings (trees : List Forest) : Except Fault (List Outline) :=
  trees.mapM fun tree => tree.outline Forest.root

theorem map_snd_scripts (os : List Outline) :
    (os.flatMap (Outline.script "")).map (·.2) = os.flatMap Outline.events := by
  rw [List.map_flatMap]
  exact List.flatMap_congr fun x _ => x.map_snd_script ""

theorem forall₂_readings {trees : List Forest} {os : List Outline} (hr : readings trees = .ok os) :
    List.Forall₂ (fun tree x => tree.outline Forest.root = .ok x) trees os :=
  forall₂_of_mapM hr

theorem forall₂_shows {trees : List Forest} {os : List Outline} (hr : readings trees = .ok os)
    (hw : ∀ t ∈ trees, t.WellFormed) : List.Forall₂ Forest.Shows trees os := by
  have h := forall₂_readings hr
  clear hr
  induction h with
  | nil => exact .nil
  | @cons tree y trees os ht _ ih =>
      obtain ⟨x, hx⟩ := (hw tree List.mem_cons_self).exists_shows
      cases hx.outline.symm.trans ht
      exact .cons hx (ih fun t hm => hw t (List.mem_cons_of_mem _ hm))

theorem mem_readings {trees : List Forest} {os : List Outline} (hr : readings trees = .ok os)
    {x : Outline} : x ∈ os ↔ ∃ tree ∈ trees, tree.outline Forest.root = .ok x := by
  have h := forall₂_readings hr
  clear hr
  induction h with
  | nil => simp
  | cons ht _ ih =>
      simp only [List.mem_cons, ih, exists_eq_or_imp, ht, Except.ok.injEq]
      exact or_congr_left eq_comm

theorem foldlM_merge {trees : List Forest} {os : List Outline} (hr : readings trees = .ok os) :
    trees.foldlM (State.merge o) s = s.run o (os.flatMap Outline.events) := by
  have h := forall₂_readings hr
  clear hr
  induction h generalizing s with
  | nil => rfl
  | @cons tree x trees os ht _ ih =>
      rw [List.foldlM_cons, State.merge, ht, List.flatMap_cons, State.run, List.foldlM_append]
      change (s.run o x.events >>= _) = (s.run o x.events >>= _)
      congr
      funext s'
      exact ih

theorem readings_cons {tree : Forest} {trees : List Forest} {x : Outline} {os : List Outline}
    (ht : tree.outline Forest.root = .ok x) (hr : readings trees = .ok os) :
    readings (tree :: trees) = .ok (x :: os) := by
  rw [readings] at hr ⊢
  rw [List.mapM_cons, ht, hr]
  rfl

theorem readings_append {trees trees' : List Forest} {os os' : List Outline}
    (hr : readings trees = .ok os) (hr' : readings trees' = .ok os') :
    readings (trees ++ trees') = .ok (os ++ os') := by
  rw [readings] at hr hr' ⊢
  rw [List.mapM_append, hr, hr']
  rfl

theorem exists_readings_of {trees : List Forest} {p : Outline → Prop}
    (h : ∀ t ∈ trees, ∃ x, t.outline Forest.root = .ok x ∧ p x) :
    ∃ os, readings trees = .ok os ∧ ∀ x ∈ os, p x := by
  induction trees with
  | nil => exact ⟨[], rfl, by simp⟩
  | cons tree trees ih =>
      obtain ⟨x, hx, hpx⟩ := h tree (by simp)
      obtain ⟨os, hos, hps⟩ := ih fun t ht => h t (by simp [ht])
      exact ⟨x :: os, readings_cons hx hos, by simpa using ⟨hpx, hps⟩⟩

theorem exists_readings {trees : List Forest} (hc : ∀ t ∈ trees, t.ConflictFree) :
    ∃ os, readings trees = .ok os ∧ ∀ x ∈ os, x.conflictFree = true :=
  exists_readings_of hc

/-- Trees without conflicts are read to the end, and the state in the end depicts a valid draft. -/
theorem exists_run (hk : o.keep ≠ .right) {os : List Outline}
    (hc : ∀ x ∈ os, x.conflictFree = true) : ∃ Q s, Runs o .empty (os.flatMap (Outline.script "")) Q ∧
      State.run o {} (os.flatMap Outline.events) = .ok s ∧ s.Depicts Q ∧ Q.Valid := by
  obtain ⟨Q, hr, hv, -⟩ := exists_runs_list hk hc Draft.valid_empty
  change Runs o .empty (os.flatMap (Outline.script "")) Q at hr
  obtain ⟨s, hs, hd⟩ := hr.depicts State.Depicts.empty Draft.valid_empty
  rw [map_snd_scripts] at hs
  exact ⟨Q, s, hr, hs, hd, hv⟩

end Merge

end Reconcile
