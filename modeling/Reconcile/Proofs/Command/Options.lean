import Mathlib.Data.Option.Basic
import Reconcile.Command.Arguments

namespace Reconcile.Command

namespace Given

def append (found more : Given) : Given where
  values := found.values ++ more.values
  flags := found.flags ++ more.flags
  plain := found.plain ++ more.plain

end Given

theorem readTrailing_append (g : Grammar) (found more : Given) (args : List String) :
    readTrailing g (found.append more) args = (readTrailing g more args).map found.append := by
  fun_induction readTrailing g more args with
  | case1 more => rfl
  | case2 more arg rest text h ih =>
      rw [readTrailing, h, ← ih]
      simp only [Given.append, List.append_assoc]
  | case3 more arg rest name h ih =>
      rw [readTrailing, h, ← ih]
      simp only [Given.append, List.append_assoc]
  | case4 more arg rest name value h ih =>
      rw [readTrailing, h, ← ih]
      simp only [Given.append, List.append_assoc]
  | case5 more arg name h value rest hs ih =>
      rw [readTrailing, h, ← ih]
      dsimp only
      rw [if_pos hs]
      simp only [Given.append, List.append_assoc]
  | case6 more arg name h value rest hs =>
      rw [readTrailing, h]
      dsimp only
      rw [if_neg hs]
      rfl
  | case7 more arg name h =>
      rw [readTrailing, h]
      rfl
  | case8 more arg rest h =>
      rw [readTrailing, h]
      simp only [Given.append, List.append_assoc, Option.map_some]
  | case9 more arg rest h =>
      rw [readTrailing, h]
      rfl

theorem exists_front_of_readLeading {found leading : Given} {args rest : List String}
    (h : readLeading found args = some (leading, rest)) :
    ∃ front name following, rest = name :: following ∧ args = front ++ name :: following ∧
      ∀ other, readLeading found (front ++ name :: other) = some (leading, name :: other) := by
  fun_induction readLeading found args with
  | case1 => cases h
  | case2 found arg following text harg =>
      cases h
      exact ⟨[], arg, following, rfl, rfl, fun other => by rw [List.nil_append, readLeading, harg]⟩
  | case3 found arg following option value harg ih =>
      obtain ⟨front, name, following, rfl, rfl, hread⟩ := ih h
      refine ⟨arg :: front, name, following, rfl, rfl, fun other => ?_⟩
      rw [List.cons_append, readLeading, harg]
      exact hread other
  | case4 found arg option harg value following hs ih =>
      obtain ⟨front, name, following, rfl, rfl, hread⟩ := ih h
      refine ⟨arg :: value :: front, name, following, rfl, rfl, fun other => ?_⟩
      rw [List.cons_append, List.cons_append, readLeading, harg]
      dsimp only
      rw [if_pos hs]
      exact hread other
  | case5 => cases h
  | case6 => cases h
  | case7 => cases h

def Invocation.ofMerge? (leading trailing : Given) : Option Invocation := do
  guard (leading.isConsistent && trailing.isConsistent)
  let settings := (← trailing.path? "config").or (← leading.path? "config")
  let logDirectory := (← trailing.path? "log-dir").or (← leading.path? "log-dir")
  return {
    task := ← readMerge trailing
    settings := settings.getD defaultSettings
    logDirectory }

theorem ofArguments?_merge {leading : Given} {args rest : List String}
    (h : readLeading {} args = some (leading, "merge" :: rest)) :
    Invocation.ofArguments? args = (readTrailing .merge {} rest).bind (Invocation.ofMerge? leading) := by
  unfold Invocation.ofArguments?
  rw [h]
  rfl

theorem Invocation.of_ofMerge? {leading given : Given} {i : Invocation}
    (h : Invocation.ofMerge? leading given = some i) : readMerge given = some i.task := by
  unfold ofMerge? at h
  simp only [Option.bind_eq_bind, Option.bind_eq_some_iff] at h
  obtain ⟨_, _, _, _, _, _, _, _, _, _, task, ht, h⟩ := h
  cases h
  exact ht

theorem exists_readLeading_of_merge {args : List String} {i : Invocation} {r : MergeRequest}
    (hi : Invocation.ofArguments? args = some i) (hr : i.task = .merge r) :
    ∃ leading rest, readLeading {} args = some (leading, "merge" :: rest) := by
  unfold Invocation.ofArguments? at hi
  simp only [Option.bind_eq_bind, Option.bind_eq_some_iff] at hi
  obtain ⟨⟨leading, _ | ⟨name, rest⟩⟩, hl, hi⟩ := hi
  · cases hi
  · refine ⟨leading, rest, ?_⟩
    suffices hname : name = "merge" from hname ▸ hl
    by_contra hname
    have htask (given : Given) : readTask name given ≠ some (.merge r) := by
      unfold readTask
      rw [if_neg hname]
      intro h
      cases hs : readSingle given with
      | none =>
          rw [hs] at h
          cases h
      | some request =>
          rw [hs] at h
          by_cases hn : name = "normalize"
          · simp [hn] at h
          · simp [hn] at h
    simp only [Option.bind_eq_some_iff] at hi
    obtain ⟨_, _, given, _, _, _, _, _, _, _, _, _, _, _, task, ht, hi⟩ := hi
    cases hi
    exact htask given (ht.trans (congrArg some hr))

def Task.amend (f : MergeRequest → MergeRequest) : Task → Task
  | merge r => merge (f r)
  | task => task

def Given.keep? (given : Given) : Option (Option Keep) :=
  match given.value? "keep" with
  | none => some none
  | some name => (Keep.table.lookup name).map some

theorem readMerge_eq (given : Given) : readMerge given = do
    guard (!given.plain.isEmpty && given.plain.all (· ≠ ""))
    return .merge {
      files := given.plain
      leftLabel := given.value? "left-label"
      rightLabel := given.value? "right-label"
      keep := ← given.keep?
      normalize := !given.flags.contains "no-normalize"
      report := ← given.path? "report"
      failOnConflict := given.flags.contains "fail-on-conflict"
      output := ← given.path? "output" } := by
  unfold readMerge Given.keep?
  cases given.value? "keep" <;> rfl

theorem of_readMerge {given : Given} {r : MergeRequest} (h : readMerge given = some (.merge r)) :
    given.path? "report" = some r.report ∧
      r.failOnConflict = given.flags.contains "fail-on-conflict" := by
  rw [readMerge_eq] at h
  simp only [Option.bind_eq_bind, Option.bind_eq_some_iff] at h
  obtain ⟨_, _, keep, _, report, hreport, output, _, h⟩ := h
  cases h
  exact ⟨hreport, rfl⟩

namespace Given

variable {given given' : Given} {f : MergeRequest → MergeRequest}

/-- What is given changes what a merge is asked to do, and nothing else. -/
structure Amends (given given' : Given) (f : MergeRequest → MergeRequest) : Prop where
  consistent : given'.isConsistent = given.isConsistent
  config : given'.path? "config" = given.path? "config"
  logDirectory : given'.path? "log-dir" = given.path? "log-dir"
  task : readMerge given' = (readMerge given).map (Task.amend f)

theorem Amends.ofMerge? (h : given.Amends given' f) (leading : Given) :
    Invocation.ofMerge? leading given' =
      (Invocation.ofMerge? leading given).map fun i => { i with task := i.task.amend f } := by
  unfold Invocation.ofMerge?
  rw [h.consistent, h.config, h.logDirectory, h.task]
  simp only [Option.bind_eq_bind, Option.pure_def, Option.map_bind, Option.bind_map, Function.comp_def,
    Option.map_some]

theorem amends_failOnConflict (h : "fail-on-conflict" ∉ given.flags) :
    given.Amends { given with flags := "fail-on-conflict" :: given.flags }
      fun r => { r with failOnConflict := true } where
  consistent := by simp [isConsistent, h]
  config := rfl
  logDirectory := rfl
  task := by
    have hvalue (name : String) :
        value? { given with flags := "fail-on-conflict" :: given.flags } name = given.value? name := rfl
    have hpath (name : String) :
        path? { given with flags := "fail-on-conflict" :: given.flags } name = given.path? name := rfl
    have hkeep : keep? { given with flags := "fail-on-conflict" :: given.flags } = given.keep? := rfl
    rw [readMerge_eq, readMerge_eq]
    simp [hvalue, hpath, hkeep, Option.map_bind, Function.comp_def, Task.amend]

theorem value?_other {name option value : String} (h : name ≠ option) :
    value? { given with values := (option, value) :: given.values } name = given.value? name := by
  have hb : (name == option) = false := beq_false_of_ne h
  simp [value?, List.lookup_cons, hb]

theorem path?_other {name option value : String} (h : name ≠ option) :
    path? { given with values := (option, value) :: given.values } name = given.path? name := by
  unfold path?
  rw [value?_other h]

theorem amends_report {path : String} (hn : given.value? "report" = none) (hp : path ≠ "") :
    given.Amends { given with values := ("report", path) :: given.values }
      fun r => { r with report := some path } where
  consistent := by
    have hnew : "report" ∉ given.values.map (·.1) := by
      rw [value?, List.lookup_eq_none_iff] at hn
      rintro hm
      obtain ⟨⟨_, value⟩, hm, rfl⟩ := List.mem_map.mp hm
      simpa using hn _ hm
    simp [isConsistent, hnew]
  config := path?_other (by decide)
  logDirectory := path?_other (by decide)
  task := by
    have hkeep : keep? { given with values := ("report", path) :: given.values } = given.keep? := by
      unfold keep?
      rw [value?_other (by decide)]
    have hreport : path? { given with values := ("report", path) :: given.values } "report" =
        some (some path) := by
      simp [path?, value?, hp]
    have hnone : given.path? "report" = some none := by rw [path?, hn]
    rw [readMerge_eq, readMerge_eq, hkeep, hreport, hnone,
      path?_other (by decide : "output" ≠ "report"),
      value?_other (by decide : "left-label" ≠ "report"),
      value?_other (by decide : "right-label" ≠ "report")]
    simp [Option.map_bind, Function.comp_def, Task.amend]

end Given

theorem readTrailing_failOnConflict (args : List String) :
    readTrailing .merge {} ("--fail-on-conflict" :: args) =
      (readTrailing .merge {} args).map fun given =>
        { given with flags := "fail-on-conflict" :: given.flags } := by
  have harg : Argument.ofString? .merge "--fail-on-conflict" = some (.flag "fail-on-conflict") := rfl
  rw [readTrailing, harg]
  exact readTrailing_append .merge ⟨[], ["fail-on-conflict"], []⟩ {} args

theorem readTrailing_report (path : String) (args : List String) :
    readTrailing .merge {} (("--report=" ++ path) :: args) =
      (readTrailing .merge {} args).map fun given =>
        { given with values := ("report", path) :: given.values } := by
  have harg : Argument.ofString? .merge ("--report=" ++ path) = some (.valued "report" (some path)) := by
    unfold Argument.ofString?
    rw [String.toList_append]
    change (if "report" ∈ Grammar.merge.valued then
      some (Argument.valued "report" (String.ofList path.toList)) else none) = _
    rw [String.ofList_toList]
    rfl
  rw [readTrailing, harg]
  exact readTrailing_append .merge ⟨[("report", path)], [], []⟩ {} args

section

variable {args : List String} {i : Invocation} {r : MergeRequest}
  (hi : Invocation.ofArguments? args = some i) (hr : i.task = .merge r)

include hi hr

/-- Where a merge is asked for, an option right after the name of the command changes what it is for. -/
theorem exists_amended :
    ∃ front rest given, args = front ++ "merge" :: rest ∧ readMerge given = some (.merge r) ∧
      ∀ (option : String) (more : Given → Given) (f : MergeRequest → MergeRequest),
        readTrailing .merge {} (option :: rest) = (readTrailing .merge {} rest).map more →
        given.Amends (more given) f →
        Invocation.ofArguments? (front ++ "merge" :: option :: rest) =
          some { i with task := .merge (f r) } := by
  obtain ⟨leading, rest, hl⟩ := exists_readLeading_of_merge hi hr
  obtain ⟨front, name, following, hname, rfl, hfront⟩ := exists_front_of_readLeading hl
  cases hname
  rw [ofArguments?_merge hl] at hi
  obtain ⟨given, hg, hi⟩ := Option.bind_eq_some_iff.mp hi
  have hread : readMerge given = some (.merge r) := hr ▸ Invocation.of_ofMerge? hi
  refine ⟨front, rest, given, rfl, hread, fun option more f hm ha => ?_⟩
  rw [ofArguments?_merge (hfront (option :: rest)), hm, hg, Option.map_some, Option.bind_some,
    ha.ofMerge?, hi, Option.map_some, hr]
  rfl

theorem exists_with_failOnConflict (hf : r.failOnConflict = false) :
    ∃ front rest, args = front ++ "merge" :: rest ∧
      Invocation.ofArguments? (front ++ "merge" :: "--fail-on-conflict" :: rest) =
        some { i with task := .merge { r with failOnConflict := true } } := by
  obtain ⟨front, rest, given, hargs, hread, hamended⟩ := exists_amended hi hr
  have hnew : "fail-on-conflict" ∉ given.flags := by
    have hflag := (of_readMerge hread).2
    rw [hf] at hflag
    simpa using hflag.symm
  exact ⟨front, rest, hargs, hamended _ _ _ (readTrailing_failOnConflict rest)
    (Given.amends_failOnConflict hnew)⟩

theorem exists_with_report {path : String} (hn : r.report = none) (hp : path ≠ "") :
    ∃ front rest, args = front ++ "merge" :: rest ∧
      Invocation.ofArguments? (front ++ "merge" :: ("--report=" ++ path) :: rest) =
        some { i with task := .merge { r with report := some path } } := by
  obtain ⟨front, rest, given, hargs, hread, hamended⟩ := exists_amended hi hr
  have hnew : given.value? "report" = none := by
    have hreport := (of_readMerge hread).1
    rw [hn] at hreport
    unfold Given.path? at hreport
    split at hreport
    · assumption
    · split at hreport <;> cases hreport
  exact ⟨front, rest, hargs, hamended _ _ _ (readTrailing_report path rest)
    (Given.amends_report hnew hp)⟩

end

end Reconcile.Command
