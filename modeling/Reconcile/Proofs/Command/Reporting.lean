import Reconcile.Proofs.Command.Saving
import Reconcile.Proofs.Document.Planting
import Reconcile.Proofs.Merge.Endurance

namespace Reconcile.Command

def arranged (settings : Settings) (r : MergeRequest) (merged : Merge.Output) : Except Fault Forest :=
  if settings.normalize && r.normalize then merged.forest.normalize else .ok merged.forest

def verdict (r : MergeRequest) (merged : Merge.Output) : Except Failure Unit :=
  if r.failOnConflict && !merged.conflicts.isEmpty then .error (.conflicts merged.conflicts.length)
  else .ok ()

def Files.merge (fs : Files) (settings : Settings) (r : MergeRequest) :
    Except Failure (Merge.Output × List Report) :=
  match r.files.mapM fs.tree with
  | .error e => .error e
  | .ok trees =>
    match Merge.mergeAll (r.options settings) trees with
    | .error f => .error (.fault f)
    | .ok merged =>
      match Report.ofOutput settings.style merged with
      | .error f => .error (.fault f)
      | .ok reports => .ok (merged, reports)

namespace Session

variable {s s' : Session} {p : Place} {path text : String} {trail : List Place}

def report (s : Session) (r : MergeRequest) (reports : List Report) : Except Failure Unit × Session :=
  match r.report with
  | some path => s.perform (save path (Report.text reports))
  | none => (.ok (), s)

def publish (s : Session) (style : Style) (tree : Except Fault Forest) (output : Option String) :
    Except Failure Unit × Session :=
  match tree.bind fun tree => tree.render style with
  | .error f => (.error (.fault f), s)
  | .ok text =>
    match output with
    | some path => s.perform (save path text)
    | none => (.ok (), { s with printed := s.printed ++ text })

def finish (s : Session) (settings : Settings) (r : MergeRequest) (merged : Merge.Output) :
    Except Failure Unit × Session :=
  match s.publish settings.style (arranged settings r merged) r.output with
  | (.error e, s') => (.error e, s')
  | (.ok (), s') => (verdict r merged, s')

theorem perform_orFault {α : Type} (s : Session) (x : Except Fault α) :
    s.perform (orFault x) = (x.mapError .fault, s) := by
  cases x <;> rfl

theorem perform_unless (s : Session) (result : Files → Option Files) (e : Failure) :
    s.perform (do unless ← (attempt result) do throw e) =
      match result s.files with
      | none => (.error e, s)
      | some files => (.ok (), { s with files }) := by
  rw [perform_bind, perform_attempt]
  cases result s.files <;> rfl

theorem perform_save (s : Session) (path text : String) : s.perform (save path text) =
    match s.files.prepared? path with
    | none => (.error (.unwritable path), s)
    | some made =>
      match made.write? path text with
      | none => (.error (.unwritable path), { s with files := made })
      | some saved => (.ok (), { s with files := saved }) := by
  have hprepare : s.perform (prepare path) =
      match s.files.prepared? path with
      | none => (.error (.unwritable path), s)
      | some made => (.ok (), { s with files := made }) := by
    unfold prepare Files.prepared?
    cases parent? path with
    | none => rfl
    | some directory => exact perform_unless s (·.makeDirectory? directory) _
  unfold save
  rw [perform_bind, hprepare]
  cases s.files.prepared? path with
  | none => rfl
  | some made => exact perform_unless _ (·.write? path text) _

theorem perform_emit (s : Session) (style : Style) (tree : Forest) (output : Option String) :
    s.perform (emit style tree output) = s.publish style (.ok tree) output := by
  unfold emit publish
  rw [perform_bind]
  rw [show (Except.ok tree).bind (fun tree => tree.render style) = tree.render style from rfl]
  cases tree.render style with
  | error f => rfl
  | ok text => cases output <;> rfl

theorem perform_verdict (s : Session) (r : MergeRequest) (merged : Merge.Output) :
    s.perform (if (r.failOnConflict && !merged.conflicts.isEmpty) = true then
        throw (.conflicts merged.conflicts.length) else pure ()) = (verdict r merged, s) := by
  unfold verdict
  split <;> rfl

theorem perform_rest (s : Session) (settings : Settings) (r : MergeRequest) (merged : Merge.Output) :
    s.perform (do
      let tree ←
        if settings.normalize && r.normalize then orFault merged.forest.normalize
        else pure merged.forest
      emit settings.style tree r.output
      if r.failOnConflict && !merged.conflicts.isEmpty then
        throw (.conflicts merged.conflicts.length)) = s.finish settings r merged := by
  have hemit (s : Session) (tree : Forest) : s.perform (do
      emit settings.style tree r.output
      if r.failOnConflict && !merged.conflicts.isEmpty then
        throw (.conflicts merged.conflicts.length)) =
      match s.publish settings.style (.ok tree) r.output with
      | (.error e, s') => (.error e, s')
      | (.ok (), s') => (verdict r merged, s') := by
    rw [perform_bind, perform_emit]
    rcases s.publish settings.style (.ok tree) r.output with ⟨_ | _, s'⟩
    · rfl
    · exact perform_verdict s' r merged
  unfold finish arranged
  cases settings.normalize && r.normalize with
  | false => exact hemit s merged.forest
  | true =>
      change s.perform (orFault merged.forest.normalize >>= _) = _
      rw [perform_bind, perform_orFault]
      cases merged.forest.normalize with
      | error f => rfl
      | ok tree => exact hemit s tree

/-- Once its trees are merged, a run writes its report, puts out its tree and gives its verdict. -/
theorem perform_runMerge (s : Session) (settings : Settings) (r : MergeRequest) :
    s.perform (runMerge settings r) =
      match s.files.merge settings r with
      | .error e => (.error e, s)
      | .ok (merged, reports) =>
        match s.report r reports with
        | (.error e, s') => (.error e, s')
        | (.ok (), s') => s'.finish settings r merged := by
  unfold runMerge Files.merge
  rw [perform_bind, perform_loadTrees]
  cases r.files.mapM s.files.tree with
  | error e => rfl
  | ok trees =>
      dsimp only
      rw [perform_bind, perform_orFault]
      cases Merge.mergeAll (r.options settings) trees with
      | error f => rfl
      | ok merged =>
          change s.perform (orFault (Report.ofOutput settings.style merged) >>= _) = _
          rw [perform_bind, perform_orFault]
          dsimp only
          cases Report.ofOutput settings.style merged with
          | error f => rfl
          | ok reports =>
              dsimp only [Except.mapError]
              unfold report
              cases r.report with
              | none => exact perform_rest s settings r merged
              | some path =>
                  dsimp only
                  rw [perform_bind]
                  rcases s.perform (save path (Report.text reports)) with ⟨_ | _, s'⟩
                  · rfl
                  · exact perform_rest s' settings r merged

structure OnlyFile (s s' : Session) (path text : String) : Prop where
  printed : s'.printed = s.printed
  files : s.files.OnlyFile s'.files path text

namespace OnlyFile

variable (h : s.OnlyFile s' path text)

include h

theorem save {target other : String} (ha : Apart path target) :
    (s'.perform (save target other)).1 = (s.perform (save target other)).1 ∧
      (s.perform (save target other)).2.OnlyFile (s'.perform (save target other)).2 path text := by
  have hprepared := h.files.prepared? ha.1
  have hroom (made : Files) (hm : s.files.prepared? target = some made) :=
    Files.isDirectory_of_prepared hm
  rw [perform_save, perform_save]
  revert hprepared hroom
  generalize s.files.prepared? target = made, s'.files.prepared? target = made'
  intro hprepared hroom
  cases hprepared with
  | none => exact ⟨rfl, h⟩
  | @some made made' hmade =>
      have hwritten := hmade.write? other ha (hroom made rfl)
      dsimp only
      revert hwritten
      generalize made.write? target other = saved, made'.write? target other = saved'
      intro hwritten
      cases hwritten with
      | none => exact ⟨rfl, h.printed, hmade⟩
      | some hsaved => exact ⟨rfl, h.printed, hsaved⟩

theorem publish (style : Style) (tree : Except Fault Forest) {output : Option String}
    (ha : ∀ target, output = some target → Apart path target) :
    (s'.publish style tree output).1 = (s.publish style tree output).1 ∧
      (s.publish style tree output).2.OnlyFile (s'.publish style tree output).2 path text := by
  unfold Session.publish
  cases tree.bind fun tree => tree.render style with
  | error f => exact ⟨rfl, h⟩
  | ok printed =>
      cases output with
      | none => exact ⟨rfl, by rw [h.printed], h.files⟩
      | some target => exact h.save (ha target rfl)

theorem finish (settings : Settings) {r : MergeRequest} (merged : Merge.Output)
    (ha : ∀ target, r.output = some target → Apart path target) :
    (s'.finish settings r merged).1 = (s.finish settings r merged).1 ∧
      (s.finish settings r merged).2.OnlyFile (s'.finish settings r merged).2 path text := by
  have hpublish := h.publish settings.style (arranged settings r merged) ha
  unfold Session.finish
  revert hpublish
  generalize s.publish settings.style (arranged settings r merged) r.output = published
  generalize s'.publish settings.style (arranged settings r merged) r.output = published'
  obtain ⟨outcome, s₁⟩ := published
  obtain ⟨outcome', s₁'⟩ := published'
  rintro ⟨rfl, hfile⟩
  cases outcome' with
  | error e => exact ⟨rfl, hfile⟩
  | ok => exact ⟨rfl, hfile⟩

end OnlyFile

theorem exists_saved (hw : s.files.Writable path) (text : String) :
    ∃ s', s.perform (save path text) = (.ok (), s') ∧ s.OnlyFile s' path text := by
  obtain ⟨made, saved, hmade, hsaved, hfile⟩ := hw.exists_saved text
  rw [perform_save, hmade]
  dsimp only
  rw [hsaved]
  exact ⟨_, rfl, rfl, hfile⟩

/-- A report that can be written makes no difference to how a run ends, and none but its file to the
session after it. -/
theorem perform_runMerge_report (settings : Settings) {r : MergeRequest} (hr : r.report = none)
    (hw : s.files.Writable path) (ha : ∀ target, r.output = some target → Apart path target) :
    (s.perform (runMerge settings { r with report := some path })).1 =
        (s.perform (runMerge settings r)).1 ∧
      match s.files.merge settings r with
      | .error _ => (s.perform (runMerge settings { r with report := some path })).2 =
          (s.perform (runMerge settings r)).2
      | .ok (_, reports) => (s.perform (runMerge settings r)).2.OnlyFile
          (s.perform (runMerge settings { r with report := some path })).2 path
          (Report.text reports) := by
  have hmerge : s.files.merge settings { r with report := some path } = s.files.merge settings r := rfl
  rw [perform_runMerge, perform_runMerge, hmerge]
  cases s.files.merge settings r with
  | error e => exact ⟨rfl, rfl⟩
  | ok run =>
      obtain ⟨merged, reports⟩ := run
      obtain ⟨saved, hsaved, h⟩ := exists_saved hw (Report.text reports)
      dsimp only [report]
      rw [hsaved, hr]
      exact h.finish settings merged ha

end Session

/-- A report of a conflict of a tree shows what stands in the tree on both sides of the conflict. -/
structure Describes (style : Style) (f : Forest) (c : Merge.Conflict) (report : Report) : Prop where
  key : report.key = c.key
  labels : report.labels = c.labels
  left : f.renderNode c.left style = .ok report.left
  right : f.renderNode c.right style = .ok report.right

namespace Files

variable {fs : Files} {r : MergeRequest} {merged : Merge.Output} {reports : List Report}
  {trees : List Forest}

theorem describes_of_ofConflict {style : Style} {f : Forest} {c : Merge.Conflict} {report : Report}
    (h : Report.ofConflict style f c = .ok report) : Describes style f c report := by
  unfold Report.ofConflict at h
  obtain ⟨left, hleft, h⟩ := exists_of_bind_eq_ok h
  obtain ⟨right, hright, h⟩ := exists_of_bind_eq_ok h
  cases h
  exact ⟨rfl, rfl, hleft, hright⟩

theorem describes_of_merge {settings : Settings} (h : fs.merge settings r = .ok (merged, reports)) :
    ∃ trees, r.files.mapM fs.tree = .ok trees ∧
      Merge.mergeAll (r.options settings) trees = .ok merged ∧
      List.Forall₂ (Describes settings.style merged.forest) merged.conflicts reports := by
  unfold merge at h
  split at h
  · cases h
  · next trees ht =>
      split at h
      · cases h
      · next merged hm =>
          split at h
          · cases h
          · next reports hr =>
              cases h
              exact ⟨trees, ht, hm, (forall₂_of_mapM hr).imp fun _ _ => describes_of_ofConflict⟩

theorem wellFormed_of_tree {path : String} {tree : Forest} (h : fs.tree path = .ok tree) :
    tree.WellFormed := by
  unfold Files.tree at h
  split at h
  · cases h
  · split at h
    · next hl =>
        cases h
        unfold Document.load at hl
        split at hl
        · exact (Document.shows_numbered hl).1
        · cases hl
    · cases h

theorem exists_merge (settings : Settings) (ht : r.files.mapM fs.tree = .ok trees) :
    ∃ merged reports, fs.merge settings r = .ok (merged, reports) := by
  have hw : ∀ t ∈ trees, t.WellFormed := by
    intro t hm
    obtain ⟨path, -, hp⟩ := exists_of_forall₂ (forall₂_of_mapM ht).flip t hm
    exact wellFormed_of_tree hp
  obtain ⟨merged, hm, hforest, hsides⟩ := Merge.mergeAll_wellFormed (r.options settings) hw
  obtain ⟨reports, hr⟩ := Merge.exists_reports settings.style hforest hsides
  refine ⟨merged, reports, ?_⟩
  unfold merge
  rw [ht]
  dsimp only
  rw [hm]
  dsimp only
  rw [hr]

end Files

end Reconcile.Command
