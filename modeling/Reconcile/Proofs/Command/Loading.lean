import Reconcile.Proofs.Command.Logging
import Reconcile.Proofs.Sequencing

namespace Reconcile.Command

def Files.settings? (fs : Files) (path : String) : Option Settings :=
  match fs.read path with
  | .ok text => Settings.parse? text
  | .error cause => if cause.isThere then none else some {}

namespace Session

def execute (s : Session) (args : List String) : Outcome × Session :=
  (Command.execute args : StateM Session Outcome) s

def openLog (s : Session) (directory : Option String) : Except Failure Unit × Session :=
  (Command.openLog directory : ExceptT Failure (StateM Session) Unit) s

/-- A computation that may fail, run in a session. -/
def perform {α : Type} (s : Session) (x : ExceptT Failure (StateM Session) α) :
    Except Failure α × Session :=
  x s

variable {s s' : Session} {α β : Type}

theorem perform_bind (s : Session) (x : ExceptT Failure (StateM Session) α)
    (k : α → ExceptT Failure (StateM Session) β) :
    s.perform (x >>= k) =
      match s.perform x with
      | (.ok a, s') => s'.perform (k a)
      | (.error e, s') => (.error e, s') := by
  change (match x s with | (r, s') => ExceptT.bindCont k r s') = _
  unfold perform
  cases hx : x s with
  | mk r s' => cases r <;> rfl

theorem perform_read (s : Session) (path : String) :
    s.perform (liftM (Storage.read path : StateM Session _)) = (.ok (s.files.read path), s) := rfl

theorem perform_loadSettings (s : Session) (path : String) :
    s.perform (loadSettings path) =
      (match s.files.settings? path with
        | some settings => .ok settings
        | none => .error (.badSettings path), s) := by
  unfold loadSettings Files.settings?
  rw [perform_bind, perform_read]
  dsimp only
  cases s.files.read path with
  | ok text =>
      dsimp only
      cases Settings.parse? text <;> rfl
  | error cause =>
      dsimp only
      cases cause.isThere <;> rfl

theorem perform_loadTree (s : Session) (path : String) :
    s.perform (loadTree path) = (s.files.tree path, s) := by
  unfold loadTree Files.tree
  rw [perform_bind, perform_read]
  dsimp only
  cases s.files.read path with
  | ok text =>
      dsimp only
      cases Document.load text <;> rfl
  | error cause => rfl

theorem perform_loadTrees (s : Session) (paths : List String) :
    s.perform (paths.mapM loadTree) = (paths.mapM s.files.tree, s) := by
  induction paths with
  | nil => rfl
  | cons path paths ih =>
      rw [List.mapM_cons, List.mapM_cons, perform_bind, perform_loadTree]
      cases s.files.tree path with
      | error e => rfl
      | ok tree =>
          dsimp only
          rw [perform_bind, ih]
          cases paths.mapM s.files.tree with
          | error e => rfl
          | ok trees => rfl

theorem attempt_run (s : Session) (result : Files → Option Files) :
    (attempt result).run s =
      match result s.files with
      | some files => (true, { s with files })
      | none => (false, s) := by
  simp only [attempt, StateT.run_bind, StateT.run_get, pure_bind]
  cases result s.files <;> rfl

theorem perform_attempt (s : Session) (result : Files → Option Files) :
    s.perform (liftM (attempt result)) =
      match result s.files with
      | some files => (.ok true, { s with files })
      | none => (.ok false, s) := by
  change (match (attempt result).run s with
    | (done, s') => (Except.ok done, s') : Except Failure Bool × Session) = _
  rw [attempt_run]
  cases result s.files <;> rfl

theorem execute_eq (s : Session) (args : List String) (i : Invocation)
    (hi : Invocation.ofArguments? args = some i) :
    s.execute args =
      match s.perform (run i) with
      | (.ok (), s') => (.success, s')
      | (.error e, s') => (.failure e, s') := by
  change (Command.execute args : StateM Session Outcome).run s = _
  simp only [Command.execute, hi, StateT.run_bind]
  obtain ⟨r, s', hr⟩ : ∃ r s', s.perform (run i) = (r, s') := ⟨_, _, rfl⟩
  rw [hr, show (run i : ExceptT Failure (StateM Session) Unit).run.run s = (r, s') from hr]
  cases r <;> rfl

theorem execute_badSettings {args : List String} {i : Invocation}
    (hi : Invocation.ofArguments? args = some i) (h : s.files.settings? i.settings = none) :
    s.execute args = (.failure (.badSettings i.settings), s) := by
  rw [execute_eq s args i hi, run, perform_bind, perform_loadSettings, h]

theorem perform_run {i : Invocation} {settings : Settings}
    (h : s.files.settings? i.settings = some settings) :
    s.perform (run i) =
      match s.openLog (i.logDirectory.or settings.logDirectory) with
      | (.ok (), s') => s'.perform (runTask settings i.task)
      | (.error e, s') => (.error e, s') := by
  rw [run, perform_bind, perform_loadSettings, h]
  dsimp only
  have ho : s.perform (Command.openLog (i.logDirectory.or settings.logDirectory)) =
      s.openLog (i.logDirectory.or settings.logDirectory) := rfl
  rw [perform_bind, ho]
  rcases s.openLog (i.logDirectory.or settings.logDirectory) with ⟨_ | _, s'⟩ <;> rfl

end Session

end Reconcile.Command
