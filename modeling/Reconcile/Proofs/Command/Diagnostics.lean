import Reconcile.Proofs.Command.Options
import Reconcile.Proofs.Command.Reporting

namespace Reconcile.Command

def Outcome.ofResult : Except Failure Unit → Outcome
  | .ok () => .success
  | .error e => .failure e

namespace Session

variable {s : Session} {i : Invocation} {r : MergeRequest} {args : List String} {path : String}
  {settings : Settings}

/-- The settings of a run, and the session once its log is open. -/
def start (s : Session) (i : Invocation) : Except Failure Settings × Session :=
  match s.files.settings? i.settings with
  | none => (.error (.badSettings i.settings), s)
  | some settings =>
    match s.openLog (i.logDirectory.or settings.logDirectory) with
    | (.ok (), s') => (.ok settings, s')
    | (.error e, s') => (.error e, s')

theorem execute_merge (hi : Invocation.ofArguments? args = some i) (hr : i.task = .merge r) :
    s.execute args =
      match s.start i with
      | (.error e, s') => (.failure e, s')
      | (.ok settings, s') =>
        (.ofResult (s'.perform (runMerge settings r)).1, (s'.perform (runMerge settings r)).2) := by
  unfold start
  cases hs : s.files.settings? i.settings with
  | none => exact execute_badSettings hi hs
  | some settings =>
      rw [execute_eq s args i hi, perform_run hs]
      dsimp only
      rcases s.openLog (i.logDirectory.or settings.logDirectory) with ⟨_ | _, s'⟩
      · rfl
      · rw [hr]
        dsimp only
        rw [show runTask settings (.merge r) = runMerge settings r from rfl]
        rcases s'.perform (runMerge settings r) with ⟨_ | _, s''⟩ <;> rfl

theorem finish_failOnConflict (s : Session) (settings : Settings) (hf : r.failOnConflict = false)
    (merged : Merge.Output) :
    s.finish settings { r with failOnConflict := true } merged =
      match s.finish settings r merged with
      | (.error e, s') => (.error e, s')
      | (.ok (), s') => (verdict { r with failOnConflict := true } merged, s') := by
  have harranged : arranged settings { r with failOnConflict := true } merged =
    arranged settings r merged := rfl
  have hverdict : verdict r merged = .ok () := by simp [verdict, hf]
  unfold finish
  rw [harranged, hverdict]
  dsimp only
  rcases s.publish settings.style (arranged settings r merged) r.output with ⟨_ | _, s'⟩ <;> rfl

theorem perform_runMerge_failOnConflict (s : Session) (settings : Settings)
    (hf : r.failOnConflict = false) :
    (s.perform (runMerge settings { r with failOnConflict := true })).2 =
        (s.perform (runMerge settings r)).2 ∧
      match (s.perform (runMerge settings r)).1 with
      | .error e => (s.perform (runMerge settings { r with failOnConflict := true })).1 = .error e
      | .ok () => ∃ merged reports, s.files.merge settings r = .ok (merged, reports) ∧
          (s.perform (runMerge settings { r with failOnConflict := true })).1 =
            verdict { r with failOnConflict := true } merged := by
  have hmerge : s.files.merge settings { r with failOnConflict := true } = s.files.merge settings r := rfl
  rw [perform_runMerge, perform_runMerge, hmerge]
  cases s.files.merge settings r with
  | error e => exact ⟨rfl, rfl⟩
  | ok run =>
      obtain ⟨merged, reports⟩ := run
      have hreport : s.report { r with failOnConflict := true } reports = s.report r reports := rfl
      dsimp only
      rw [hreport]
      rcases s.report r reports with ⟨_ | _, s'⟩
      · exact ⟨rfl, rfl⟩
      · dsimp only
        rw [s'.finish_failOnConflict settings hf]
        rcases s'.finish settings r merged with ⟨_ | _, s''⟩
        · exact ⟨rfl, rfl⟩
        · exact ⟨rfl, merged, reports, rfl, rfl⟩

end Session

section

variable {args args' : List String} {i : Invocation} {r : MergeRequest} {s : Session} {path : String}

theorem execute_failOnConflict (hi : Invocation.ofArguments? args = some i)
    (hr : i.task = .merge r) (hf : r.failOnConflict = false)
    (hi' : Invocation.ofArguments? args' =
      some { i with task := .merge { r with failOnConflict := true } }) (s : Session) :
    (s.execute args').2 = (s.execute args).2 ∧
      ((s.execute args).1 ≠ .success → (s.execute args').1 = (s.execute args).1) ∧
      ((s.execute args).1 = .success → ∃ settings opened merged reports,
        s.start i = (.ok settings, opened) ∧
        opened.files.merge settings r = .ok (merged, reports) ∧
        (reports = [] → (s.execute args').1 = .success) ∧
        (reports ≠ [] → ∃ e, (s.execute args').1 = .failure e ∧ e.exitCode = 1 ∧
          e.message = toString reports.length ++ " conflict(s) found")) := by
  rw [Session.execute_merge hi hr, Session.execute_merge hi' rfl]
  have hstart : s.start { i with task := .merge { r with failOnConflict := true } } = s.start i := rfl
  rw [hstart]
  rcases s.start i with ⟨_ | settings, opened⟩
  · exact ⟨rfl, fun _ => rfl, nofun⟩
  · obtain ⟨hsession, hresult⟩ := opened.perform_runMerge_failOnConflict settings hf
    refine ⟨hsession, ?_⟩
    dsimp only
    cases hx : (opened.perform (runMerge settings r)).1 with
    | error e =>
        rw [hx] at hresult
        rw [hresult]
        exact ⟨fun _ => rfl, nofun⟩
    | ok =>
        rw [hx] at hresult
        obtain ⟨⟨forest, conflicts⟩, reports, hm, hv⟩ := hresult
        refine ⟨fun h => absurd rfl h, fun _ => ⟨settings, opened, _, reports, rfl, hm, ?_⟩⟩
        obtain ⟨-, -, -, hreports⟩ := Files.describes_of_merge hm
        rw [hv, verdict, ← hreports.length_eq]
        cases hreports with
        | nil => exact ⟨fun _ => rfl, fun h => absurd rfl h⟩
        | cons => exact ⟨nofun, fun _ => ⟨_, rfl, rfl, rfl⟩⟩

theorem execute_report (hi : Invocation.ofArguments? args = some i)
    (hr : i.task = .merge r) (hn : r.report = none)
    (hi' : Invocation.ofArguments? args' =
      some { i with task := .merge { r with report := some path } })
    (hw : ∀ settings opened, s.start i = (.ok settings, opened) → opened.files.Writable path)
    (ha : ∀ output, r.output = some output → Apart path output) :
    (s.execute args').1 = (s.execute args).1 ∧
      (s.execute args').2.printed = (s.execute args).2.printed ∧
      (∀ q, q ≠ destination path →
        (s.execute args').2.files.text? q = (s.execute args).2.files.text? q) ∧
      ∀ settings opened trees, s.start i = (.ok settings, opened) →
        r.files.mapM opened.files.tree = .ok trees →
        ∃ merged reports, Merge.mergeAll (r.options settings) trees = .ok merged ∧
          List.Forall₂ (Describes settings.style merged.forest) merged.conflicts reports ∧
          opened.files.merge settings r = .ok (merged, reports) ∧
          (s.execute args').2.files.read path = .ok (Report.text reports) := by
  rw [Session.execute_merge hi hr, Session.execute_merge hi' rfl]
  have hstart : s.start { i with task := .merge { r with report := some path } } = s.start i := rfl
  rw [hstart]
  rcases hs : s.start i with ⟨_ | settings, opened⟩
  · exact ⟨rfl, rfl, fun _ _ => rfl, nofun⟩
  · obtain ⟨hresult, hsession⟩ :=
      Session.perform_runMerge_report settings hn (hw settings opened hs) ha
    dsimp only
    rw [hresult]
    refine ⟨rfl, ?_⟩
    cases hm : opened.files.merge settings r with
    | error e =>
        rw [hm] at hsession
        rw [hsession]
        refine ⟨rfl, fun _ _ => rfl, fun _ _ trees h ht => ?_⟩
        cases h
        obtain ⟨merged, reports, hm'⟩ := Files.exists_merge settings ht
        rw [hm'] at hm
        cases hm
    | ok run =>
        obtain ⟨merged, reports⟩ := run
        rw [hm] at hsession
        refine ⟨hsession.printed, hsession.files.others, fun _ _ trees h ht => ?_⟩
        cases h
        obtain ⟨trees', ht', hmerged, hreports⟩ := Files.describes_of_merge hm
        cases ht.symm.trans ht'
        exact ⟨merged, reports, hmerged, hreports, hm, hsession.files.read⟩

end

/-- Options for diagnostics do not influence what a merge puts out. Where it is to fail on conflicts,
it prints and writes the same, and it fails exactly if it would succeed otherwise and has something to
report. Where it is to write a report, and can write it apart from the output, it ends in the same way,
prints the same, and writes the same but for the report. The report shows all conflicts of the merged
tree as it is before normalization. -/
theorem diagnostics_neutral (args : List String) (i : Invocation) (r : MergeRequest)
    (hi : Invocation.ofArguments? args = some i) (hr : i.task = .merge r) (s : Session) :
    (r.failOnConflict = false →
      (∃ front rest, args = front ++ "merge" :: rest ∧
        Invocation.ofArguments? (front ++ "merge" :: "--fail-on-conflict" :: rest) =
          some { i with task := .merge { r with failOnConflict := true } }) ∧
      ∀ args', Invocation.ofArguments? args' =
          some { i with task := .merge { r with failOnConflict := true } } →
        (s.execute args').2 = (s.execute args).2 ∧
        ((s.execute args).1 ≠ .success → (s.execute args').1 = (s.execute args).1) ∧
        ((s.execute args).1 = .success → ∃ settings opened merged reports,
          s.start i = (.ok settings, opened) ∧
          opened.files.merge settings r = .ok (merged, reports) ∧
          (reports = [] → (s.execute args').1 = .success) ∧
          (reports ≠ [] → ∃ e, (s.execute args').1 = .failure e ∧ e.exitCode = 1 ∧
            e.message = toString reports.length ++ " conflict(s) found"))) ∧
    ∀ path, r.report = none → path ≠ "" →
      (∃ front rest, args = front ++ "merge" :: rest ∧
        Invocation.ofArguments? (front ++ "merge" :: ("--report=" ++ path) :: rest) =
          some { i with task := .merge { r with report := some path } }) ∧
      ∀ args', Invocation.ofArguments? args' =
          some { i with task := .merge { r with report := some path } } →
        (∀ settings opened, s.start i = (.ok settings, opened) → opened.files.Writable path) →
        (∀ output, r.output = some output → Apart path output) →
        (s.execute args').1 = (s.execute args).1 ∧
        (s.execute args').2.printed = (s.execute args).2.printed ∧
        (∀ q, q ≠ destination path →
          (s.execute args').2.files.text? q = (s.execute args).2.files.text? q) ∧
        ∀ settings opened trees, s.start i = (.ok settings, opened) →
          r.files.mapM opened.files.tree = .ok trees →
          ∃ merged reports, Merge.mergeAll (r.options settings) trees = .ok merged ∧
            List.Forall₂ (Describes settings.style merged.forest) merged.conflicts reports ∧
            opened.files.merge settings r = .ok (merged, reports) ∧
            (s.execute args').2.files.read path = .ok (Report.text reports) := by
  refine ⟨fun hf => ⟨exists_with_failOnConflict hi hr hf, fun args' hi' => ?_⟩, fun path hn hp =>
    ⟨exists_with_report hi hr hn hp, fun args' hi' hw ha => ?_⟩⟩
  · exact execute_failOnConflict hi hr hf hi' s
  · exact execute_report hi hr hn hi' hw ha

theorem Outcome.eq_success {o : Outcome} (h : o.exitCode = 0) : o = .success := by
  cases o with
  | success => rfl
  | usage => cases h
  | failure e => cases e <;> cases h

def disputed : Session where
  files := {
    texts := [
      (["a.json"], "[\x7b\"kind\":\"const\",\"name\":\"A\",\"value\":\"1\"\x7d]"),
      (["b.json"], "[\x7b\"kind\":\"const\",\"name\":\"A\",\"value\":\"2\"\x7d]")] }

def disputedRequest : MergeRequest where
  files := ["a.json", "b.json"]
  output := some "out/merged.rbi"

theorem diagnostics_neutral_disputed :
    (∃ e, (disputed.execute
        ["merge", "--fail-on-conflict", "a.json", "b.json", "--output", "out/merged.rbi"]).1 =
      .failure e ∧ e.exitCode = 1 ∧ e.message = "1 conflict(s) found") ∧
    ∃ reports, reports.length = 1 ∧
      (disputed.execute ["merge", "a.json", "b.json", "--output", "out/merged.rbi", "--report",
        "out/report.json"]).1 = .success ∧
      (disputed.execute ["merge", "a.json", "b.json", "--output", "out/merged.rbi", "--report",
        "out/report.json"]).2.files.read "out/report.json" = .ok (Report.text reports) := by
  have hstart : disputed.start { task := .merge disputedRequest } = (.ok {}, disputed) := by
    have hs : disputed.files.settings? defaultSettings = some {} := by decide +kernel
    unfold Session.start
    dsimp only
    rw [hs]
    rfl
  have hsuccess : (disputed.execute ["merge", "a.json", "b.json", "--output", "out/merged.rbi"]).1 =
      .success := Outcome.eq_success (by decide +kernel)
  have hlength : (disputed.files.merge {} disputedRequest).toOption.map (fun run => run.2.length) =
      some 1 := by decide +kernel
  obtain ⟨hflag, hreport⟩ := diagnostics_neutral ["merge", "a.json", "b.json", "--output", "out/merged.rbi"]
    { task := .merge disputedRequest } disputedRequest rfl rfl disputed
  obtain ⟨-, -, hfails⟩ := (hflag rfl).2
    ["merge", "--fail-on-conflict", "a.json", "b.json", "--output", "out/merged.rbi"] rfl
  obtain ⟨settings, opened, merged, reports, hs, hm, -, hconflict⟩ := hfails hsuccess
  cases hstart.symm.trans hs
  rw [hm] at hlength
  have hlength : reports.length = 1 := Option.some.inj hlength
  have hne : reports ≠ [] := fun he => by rw [he] at hlength; cases hlength
  obtain ⟨trees, htrees, -, -⟩ := Files.describes_of_merge hm
  obtain ⟨hsame, -, -, hread⟩ := (hreport "out/report.json" rfl (by decide)).2
    ["merge", "a.json", "b.json", "--output", "out/merged.rbi", "--report", "out/report.json"] rfl
    (fun settings opened hs => by
      cases hstart.symm.trans hs
      decide +kernel)
    (fun output ho => by
      cases ho
      decide +kernel)
  obtain ⟨merged', reports', -, -, hm', hread⟩ := hread {} disputed trees hstart htrees
  cases hm.symm.trans hm'
  refine ⟨?_, reports, hlength, hsame.trans hsuccess, hread⟩
  rw [hlength] at hconflict
  exact hconflict hne

end Reconcile.Command
