import Reconcile.Proofs.Command.Saving

namespace Reconcile.Command

variable {path text : String} {parts : List String} {here place : Place}

namespace Place

def IsNamed (place : Place) : Prop :=
  place.isInside = true → ∀ part ∈ place, IsStep part ∧ part ≠ ".."

theorem isNamed_above (h : here.IsNamed) : here.above.IsNamed := by
  unfold above
  split
  · exact h
  · split
    · next hup =>
        intro hi
        -- There are two dots where such a place starts.
        cases here with
        | nil => cases hi
        | cons part rest =>
            have hpart : part = ".." := by simpa using (List.all_eq_true.mp hup) part List.mem_cons_self
            subst hpart
            cases hi
    · intro hi
      cases here with
      | nil => cases hi
      | cons part rest =>
          cases rest with
          | nil => cases hi
          | cons next rest => exact fun x hx => h hi x ((List.dropLast_sublist _).subset hx)

theorem isNamed_after {part : String} (hp : IsStep part) (h : here.IsNamed) : (here.after part).IsNamed := by
  unfold after
  split
  · exact h
  · split
    · exact isNamed_above h
    · next hup =>
        intro hi
        rw [List.forall_mem_append, List.forall_mem_singleton]
        refine ⟨?_, hp, hup⟩
        cases here with
        | nil => exact fun _ hx => absurd hx List.not_mem_nil
        | cons => exact h hi

theorem isNamed_foldl (hparts : ∀ part ∈ parts, IsStep part) (h : here.IsNamed) :
    (parts.foldl after here).IsNamed := by
  induction parts generalizing here with
  | nil => exact h
  | cons part parts ih =>
      rw [List.forall_mem_cons] at hparts
      exact ih hparts.2 (isNamed_after hparts.1 h)

theorem head_foldl (h : here.head? = some "/") : (parts.foldl after here).head? = some "/" := by
  induction parts generalizing here with
  | nil => exact h
  | cons part parts ih =>
      refine ih ?_
      obtain ⟨rest, rfl⟩ := List.head?_eq_some_iff.mp h
      unfold after above
      split
      · exact h
      · split
        · split
          · exact h
          · split
            · rfl
            · cases rest with
              | nil => contradiction
              | cons => rfl
        · rfl

theorem isNamed_destination (path : String) : (destination path).IsNamed := by
  obtain ⟨steps, hsteps, hmoves⟩ := exists_steps path
  rw [destination, ← foldl_after_moves]
  change ((moves path).foldl after []).IsNamed
  rcases hmoves with hmoves | hmoves
  · rw [hmoves]
    exact isNamed_foldl hsteps nofun
  · have htop : ((moves path).foldl after []).head? = some "/" := by
      rw [hmoves, List.foldl_cons]
      exact head_foldl (by decide)
    obtain ⟨rest, hrest⟩ := List.head?_eq_some_iff.mp htop
    rw [hrest]
    exact nofun

theorem foldl_after_names (hparts : ∀ part ∈ parts, IsStep part ∧ part ≠ "..") :
    parts.foldl after here = here ++ parts := by
  induction parts generalizing here with
  | nil => simp
  | cons part parts ih =>
      rw [List.forall_mem_cons] at hparts
      have hafter : here.after part = here ++ [part] := by simp [after, hparts.1.1.2, hparts.1.2]
      rw [List.foldl_cons, ih hparts.2, hafter, List.append_assoc]
      rfl

theorem destination_intercalate (hn : place.IsNamed) (hi : place.isInside = true) :
    destination ("/".intercalate place) = place := by
  have hne : place ≠ [] := fun he => by
    rw [he] at hi
    cases hi
  rw [destination, components_intercalate (fun part hm => (hn hi part hm).1) hne, foldl_after_names (hn hi)]
  rfl

end Place

namespace Files

variable {fs fs' : Files}

/-- No place has two texts, and a path leads to each of them. -/
structure Orderly (fs : Files) : Prop where
  distinct : (fs.texts.map Prod.fst).Nodup
  reached : ∀ file ∈ fs.texts, ∃ path, file.1 = destination path

theorem Orderly.mem_listing (h : fs.Orderly) : (path, text) ∈ fs.listing ↔
    fs.text? (destination path) = some text ∧ (destination path).isInside = true ∧
      "/".intercalate (destination path) = path := by
  rw [listing, List.mem_map, text?, lookup_eq_some_iff_mem h.distinct]
  constructor
  · rintro ⟨⟨place, text⟩, hm, he⟩
    obtain ⟨hm, hi⟩ := List.mem_filter.mp hm
    obtain ⟨p, rfl⟩ := h.reached _ hm
    cases he
    rw [Place.destination_intercalate (Place.isNamed_destination p) hi]
    exact ⟨hm, hi, rfl⟩
  · rintro ⟨hm, hi, hpath⟩
    exact ⟨_, List.mem_filter.mpr ⟨hm, hi⟩, Prod.ext hpath rfl⟩

theorem orderly_put (h : fs.Orderly) (path text : String) :
    Orderly { fs with texts := put fs.texts (destination path) text } where
  distinct := by
    rw [map_fst_put]
    split
    · simpa using h.distinct
    · next hn => simpa [List.nodup_append] using ⟨h.distinct, fun x t hx he => hn (List.mem_map.mpr ⟨_, hx, he⟩)⟩
  reached file hf := by
    rcases mem_map_fst_put.mp (List.mem_map_of_mem hf) with hold | hnew
    · obtain ⟨old, hm, he⟩ := List.mem_map.mp hold
      rw [← he]
      exact h.reached old hm
    · exact ⟨path, hnew⟩

theorem orderly_write (h : fs.Orderly) (hw : fs.write? path text = some fs') : fs'.Orderly := by
  obtain ⟨-, rfl⟩ := write?_eq_some_iff.mp hw
  exact orderly_put h path text

theorem orderly_touch (h : fs.Orderly) (ht : fs.touch? path = some fs') : fs'.Orderly := by
  unfold touch? at ht
  split at ht
  · cases ht
    exact h
  · exact orderly_write h ht

theorem orderly_makeDirectory (h : fs.Orderly) (hm : fs.makeDirectory? path = some fs') : fs'.Orderly := by
  have htexts := (adds_makeDirectory hm).texts
  exact ⟨htexts ▸ h.distinct, htexts ▸ h.reached⟩

end Files

namespace Session

variable {α β : Type}

/-- A computation leaves orderly files behind, whether or not it fails. -/
def Keeps (x : ExceptT Failure (StateM Session) α) : Prop :=
  ∀ s : Session, s.files.Orderly → (s.perform x).2.files.Orderly

theorem keeps_pure (a : α) : Keeps (pure a) := fun _ h => h

theorem keeps_throw (e : Failure) : Keeps (throw e : ExceptT Failure (StateM Session) α) := fun _ h => h

theorem keeps_bind {x : ExceptT Failure (StateM Session) α} {k : α → ExceptT Failure (StateM Session) β}
    (hx : Keeps x) (hk : ∀ a, Keeps (k a)) : Keeps (x >>= k) := by
  intro s hs
  have h := hx s hs
  rw [perform_bind]
  revert h
  rcases s.perform x with ⟨_ | a, s'⟩
  · exact id
  · exact hk a s'

theorem keeps_attempt {result : Files → Option Files}
    (h : ∀ fs fs', fs.Orderly → result fs = some fs' → fs'.Orderly) : Keeps (liftM (attempt result)) := by
  intro s hs
  rw [perform_attempt]
  cases hr : result s.files with
  | none => exact hs
  | some files => exact h _ _ hs hr

theorem keeps_orFault (x : Except Fault α) : Keeps (orFault x) := by
  cases x with
  | ok a => exact keeps_pure a
  | error f => exact keeps_throw _

theorem keeps_makeDirectory (directory : String) :
    Keeps (liftM (Storage.makeDirectory directory : StateM Session Bool)) :=
  keeps_attempt fun _ _ h => Files.orderly_makeDirectory h

theorem keeps_prepare (path : String) : Keeps (prepare path) := by
  unfold prepare
  split
  · exact keeps_pure ()
  · refine keeps_bind (keeps_makeDirectory _) fun done => ?_
    cases done with
    | true => exact keeps_pure ()
    | false => exact keeps_throw _

theorem keeps_save (path text : String) : Keeps (save path text) := by
  refine keeps_bind (keeps_prepare path) fun _ => ?_
  refine keeps_bind (keeps_attempt fun _ _ h => Files.orderly_write h) fun done => ?_
  cases done with
  | true => exact keeps_pure ()
  | false => exact keeps_throw _

theorem keeps_openLog (directory : Option String) : Keeps (Command.openLog directory) := by
  cases directory with
  | none => exact keeps_pure ()
  | some directory =>
      refine keeps_bind (keeps_makeDirectory directory) fun made => ?_
      cases made with
      | false => exact keeps_throw _
      | true =>
          refine keeps_bind (keeps_attempt fun _ _ h => Files.orderly_touch h) fun done => ?_
          cases done with
          | true => exact keeps_pure ()
          | false => exact keeps_throw _

theorem keeps_loadSettings (path : String) : Keeps (loadSettings path) := by
  intro s hs
  rw [perform_loadSettings]
  exact hs

theorem keeps_loadTree (path : String) : Keeps (loadTree path) := by
  intro s hs
  rw [perform_loadTree]
  exact hs

theorem keeps_emit (style : Style) (tree : Forest) (output : Option String) :
    Keeps (emit style tree output) := by
  refine keeps_bind (keeps_orFault _) fun text => ?_
  cases output with
  | none => exact fun _ h => h
  | some path => exact keeps_save path text

theorem keeps_runMerge (settings : Settings) (r : MergeRequest) : Keeps (runMerge settings r) := by
  refine keeps_bind (fun s hs => ?_) fun trees => ?_
  · rw [perform_loadTrees]
    exact hs
  refine keeps_bind (keeps_orFault _) fun merged => ?_
  refine keeps_bind (keeps_orFault _) fun reports => ?_
  have hlast (tree : Forest) : Keeps (do
      emit settings.style tree r.output
      if r.failOnConflict && !merged.conflicts.isEmpty then throw (.conflicts merged.conflicts.length)) := by
    refine keeps_bind (keeps_emit _ _ _) fun _ => ?_
    split
    · exact keeps_throw _
    · exact keeps_pure ()
  have hrest : Keeps (do
      let tree ←
        if settings.normalize && r.normalize then orFault merged.forest.normalize
        else pure merged.forest
      emit settings.style tree r.output
      if r.failOnConflict && !merged.conflicts.isEmpty then throw (.conflicts merged.conflicts.length)) := by
    cases settings.normalize && r.normalize with
    | true => exact keeps_bind (keeps_orFault _) hlast
    | false => exact keeps_bind (keeps_pure _) hlast
  cases r.report with
  | some path => exact keeps_bind (keeps_save _ _) fun _ => hrest
  | none => exact hrest

theorem keeps_run (i : Invocation) : Keeps (run i) := by
  refine keeps_bind (keeps_loadSettings _) fun settings => keeps_bind (keeps_openLog _) fun _ => ?_
  cases i.task with
  | merge r => exact keeps_runMerge settings r
  | normalize file output =>
      exact keeps_bind (keeps_loadTree file) fun _ => keeps_bind (keeps_orFault _) fun _ => keeps_emit _ _ _
  | print file output => exact keeps_bind (keeps_loadTree file) fun _ => keeps_emit _ _ _

theorem orderly_execute (s : Session) (hs : s.files.Orderly) (args : List String) :
    (s.execute args).2.files.Orderly := by
  cases hi : Invocation.ofArguments? args with
  | none =>
      have husage : s.execute args = (.usage, s) := by
        unfold execute Command.execute
        rw [hi]
        rfl
      rw [husage]
      exact hs
  | some i =>
      have h := keeps_run i s hs
      rw [execute_eq s args i hi]
      revert h
      rcases s.perform (run i) with ⟨_ | _, s'⟩
      · exact id
      · exact id

/-- However a run ends, the listing of its files tells all that has been left below the starting
directory. -/
theorem mem_listing_execute (s : Session) (hs : s.files.Orderly) (args : List String) :
    (path, text) ∈ (s.execute args).2.files.listing ↔
      (s.execute args).2.files.text? (destination path) = some text ∧
        (destination path).isInside = true ∧ "/".intercalate (destination path) = path :=
  (s.orderly_execute hs args).mem_listing

end Session

end Reconcile.Command
