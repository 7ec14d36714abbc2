import Mathlib.Data.Option.Basic
import Reconcile.Proofs.Command.Loading
import Reconcile.Proofs.Command.Paths

namespace Reconcile.Command

namespace Files

variable {fs fs' made made' saved : Files} {here p q : Place}
  {path target directory part text : String} {parts : List String}

def prepared? (fs : Files) (path : String) : Option Files :=
  match parent? path with
  | none => some fs
  | some directory => fs.makeDirectory? directory

/-- A text can be put where a path leads. -/
def Writable (fs : Files) (path : String) : Prop :=
  ∃ made ∈ fs.prepared? path, ∃ place ∈ (made.locate path).toOption, ¬ made.isDirectory place

instance (fs : Files) (path : String) : Decidable (fs.Writable path) :=
  inferInstanceAs (Decidable (∃ made ∈ fs.prepared? path,
    ∃ place ∈ (made.locate path).toOption, ¬ made.isDirectory place))

theorem walk_destination (h : fs.walk here parts = .ok q) : q = parts.foldl Place.after here := by
  induction parts generalizing here with
  | nil =>
      cases h
      rfl
  | cons part parts ih =>
      by_cases hd : fs.isDirectory here
      · rw [walk_cons hd] at h
        split at h
        · cases h
        · exact ih h
      · rw [walk_cons_stuck hd] at h
        cases h

theorem locate_destination (h : fs.locate path = .ok q) : q = destination path :=
  walk_destination (walk_of_locate h)

theorem write?_eq_some_iff : fs.write? path text = some saved ↔
    (fs.locate path = .ok (destination path) ∧ ¬ fs.isDirectory (destination path)) ∧
      { fs with texts := put fs.texts (destination path) text } = saved := by
  unfold write?
  cases hl : fs.locate path with
  | error cause => simp
  | ok place =>
      obtain rfl := locate_destination hl
      by_cases hd : fs.isDirectory (destination path) = true <;> simp [hd]

theorem makeDirectory?_of_no_dot (h : "." ∉ components path) : fs.makeDirectory? path =
    match checkPath path with
    | .error _ => none
    | .ok () => fs.makeAlong [] (components path) := by
  have hdot : endsInDot path = false := by
    rw [endsInDot, Bool.eq_false_iff]
    intro hm
    exact h (List.mem_reverse.mp ((List.takeWhile_sublist _).subset (List.contains_iff_mem.mp hm)))
  unfold makeDirectory?
  cases checkPath path with
  | error => rfl
  | ok =>
      rw [hdot]
      rfl

theorem isDirectory_of_makeAlong (hh : fs.isDirectory here)
    (h : fs.makeAlong here parts = some made) : ∀ q ∈ here.trail parts, made.isDirectory q := by
  induction parts generalizing fs here with
  | nil =>
      intro q hq
      cases h
      rwa [List.mem_singleton.mp hq]
  | cons part parts ih =>
      obtain ⟨fs', ha, hd, h⟩ := makeAlong_step hh h
      refine List.forall_mem_cons.mpr ⟨?_, ih hd h⟩
      exact (adds_makeAlong hd h).standing here (ha.standing here hh)

theorem isDirectory_of_prepared (h : fs.prepared? path = some made) :
    ∀ q ∈ way path, made.isDirectory q ∨ q = destination path := by
  intro q hq
  unfold prepared? at h
  cases hparent : parent? path with
  | none =>
      obtain rfl | rfl := mem_way_of_no_parent hparent hq
      · exact .inl (isDirectory_start made)
      · exact .inl (isDirectory_iff.mpr (.inl rfl))
  | some directory =>
      rw [hparent] at h
      dsimp only at h
      rw [makeDirectory?_of_no_dot (moves_parent hparent).2] at h
      split at h
      · cases h
      · exact ((mem_way_iff_of_parent hparent).mp hq).imp_left
          (isDirectory_of_makeAlong (isDirectory_start fs) h q)

theorem adds_prepared (h : fs.prepared? path = some made) : fs.Adds made (way path) := by
  unfold prepared? at h
  cases hparent : parent? path with
  | none =>
      rw [hparent] at h
      cases h
      exact .refl fs _
  | some directory =>
      rw [hparent] at h
      exact (adds_makeDirectory h).mono fun q hq =>
        (mem_way_iff_of_parent hparent).mpr (.inl hq)

/-- The second table has a certain text where a path leads, and perhaps directories on the way there
that the first one does not have. Otherwise they are the same. -/
structure OnlyFile (fs fs' : Files) (path text : String) : Prop where
  located : fs'.locate path = .ok (destination path)
  file : ¬ fs'.isDirectory (destination path)
  text : fs'.text? (destination path) = some text
  others : ∀ q, q ≠ destination path → fs'.text? q = fs.text? q
  standing : ∀ q, fs.isDirectory q → fs'.isDirectory q
  new : ∀ q, fs'.isDirectory q → ¬ fs.isDirectory q → q ∈ way path

theorem isDirectory_written (hw : fs.locate path = .ok (destination path))
    (hd : ¬ fs.isDirectory (destination path)) (text : String) (q : Place) :
    Files.isDirectory { fs with texts := put fs.texts (destination path) text } q =
      fs.isDirectory q := by
  refine isDirectory_put text ?_ q
  exact (isDirectory_of_walk (.inl (isDirectory_start fs)) (walk_of_locate hw)).resolve_left hd

theorem onlyFile_of_saved (h : fs.prepared? path = some made)
    (hw : made.write? path text = some saved) :
    fs.OnlyFile saved path text := by
  obtain ⟨⟨hl, hd⟩, rfl⟩ := write?_eq_some_iff.mp hw
  have ha := adds_prepared h
  have hdirs := isDirectory_written hl hd text
  refine ⟨?_, ?_, ?_, fun q hq => ?_, fun q hq => ?_, fun q hq hn => ?_⟩
  · exact locate_of_standing (fun q hq => (hdirs q).symm ▸ hq) hl
  · rwa [hdirs]
  · rw [text?, lookup_put, if_pos rfl]
  · rw [text?, lookup_put, if_neg hq]
    exact ha.text? q
  · exact (hdirs q).symm ▸ ha.standing q hq
  · exact (ha.new q (hdirs q ▸ hq) hn).1

/-- Where a text can be put, saving it makes the difference of that one file. -/
theorem Writable.exists_saved (h : fs.Writable path) (text : String) :
    ∃ made saved, fs.prepared? path = some made ∧ made.write? path text = some saved ∧
      fs.OnlyFile saved path text := by
  obtain ⟨made, hmade, place, hplace, hfile⟩ := h
  have hlocated : made.locate path = .ok place := by
    cases hl : made.locate path with
    | error cause =>
        rw [hl] at hplace
        cases hplace
    | ok q =>
        rw [hl] at hplace
        cases hplace
        rfl
  obtain rfl := locate_destination hlocated
  have hsaved : made.write? path text =
      some { made with texts := put made.texts (destination path) text } :=
    write?_eq_some_iff.mpr ⟨⟨hlocated, hfile⟩, rfl⟩
  exact ⟨made, _, hmade, hsaved, onlyFile_of_saved hmade hsaved⟩

namespace OnlyFile

variable (h : fs.OnlyFile fs' path text)

include h

theorem read : fs'.read path = .ok text := by
  unfold Files.read
  rw [h.located]
  simp only [bind, Except.bind, if_neg h.file, h.text]
  rfl

theorem of_adds (ha : fs.Adds made [q]) (hq : fs'.isDirectory q) : made.OnlyFile fs' path text where
  located := h.located
  file := h.file
  text := h.text
  others x hx := (h.others x hx).trans (ha.text? x).symm
  standing x hx := by
    by_cases hold : fs.isDirectory x
    · exact h.standing x hold
    · rwa [List.mem_singleton.mp (ha.new x hx hold).1]
  new x hx hn := h.new x hx fun hold => hn (ha.standing x hold)

theorem of_adds_both (ha : fs.Adds made [q]) (ha' : fs'.Adds made' [q]) (hq : made.isDirectory q)
    (hq' : made'.isDirectory q) (hne : q ≠ destination path) : made.OnlyFile made' path text where
  located := locate_of_standing ha'.standing h.located
  file hd := by
    by_cases hold : fs'.isDirectory (destination path)
    · exact h.file hold
    · exact hne (List.mem_singleton.mp (ha'.new _ hd hold).1).symm
  text := (ha'.text? _).trans h.text
  others x hx := by rw [ha'.text?, ha.text?, h.others x hx]
  standing x hx := by
    by_cases hold : fs.isDirectory x
    · exact ha'.standing x (h.standing x hold)
    · rwa [List.mem_singleton.mp (ha.new x hx hold).1]
  new x hx hn := by
    by_cases hold : fs'.isDirectory x
    · exact h.new x hold fun hx => hn (ha.standing x hx)
    · exact absurd (List.mem_singleton.mp (ha'.new x hx hold).1 ▸ hq) hn

theorem makeAlong (hh : fs.isDirectory here) (hp : destination path ∉ here.trail parts) :
    Option.Rel (fun made made' => made.OnlyFile made' path text) (fs.makeAlong here parts)
      (fs'.makeAlong here parts) := by
  induction parts generalizing fs fs' here with
  | nil => exact .some h
  | cons part parts ih =>
      have hp := fun hm => hp (List.mem_cons_of_mem here hm)
      rw [Files.makeAlong, Files.makeAlong]
      unfold Place.after at hp
      split
      · next hs =>
          rw [if_pos hs] at hp
          exact ih h hh hp
      · next hs =>
          split
          · next hu =>
              rw [if_neg hs, if_pos hu] at hp
              exact ih h (isDirectory_above hh) hp
          · next hu =>
              rw [if_neg hs, if_neg hu] at hp
              have hne : here ++ [part] ≠ destination path := fun he => hp (he ▸ Place.mem_trail_self _ _)
              dsimp only
              rw [h.others _ hne]
              split
              · exact .none
              · next hroom =>
                  have hx : fs.text? (here ++ [part]) = none := by
                    simp at hroom
                    exact hroom.2
                  have hx' := (h.others _ hne).trans hx
                  have ha := adds_directory hh hx
                  have ha' := adds_directory (h.standing _ hh) hx'
                  have hmade {fs : Files} : Files.isDirectory
                      { fs with directories := (here ++ [part]) :: fs.directories.erase here }
                      (here ++ [part]) :=
                    isDirectory_iff.2 (.inr (.inr (.inl ⟨_, List.mem_cons_self, List.prefix_rfl⟩)))
                  by_cases hd : fs.isDirectory (here ++ [part])
                  · rw [if_pos hd, if_pos (h.standing _ hd)]
                    exact ih h hd hp
                  · rw [if_neg hd]
                    by_cases hd' : fs'.isDirectory (here ++ [part])
                    · rw [if_pos hd']
                      exact ih (h.of_adds ha hd') hmade hp
                    · rw [if_neg hd']
                      exact ih (h.of_adds_both ha ha' hmade hmade hne) hmade hp

theorem prepared? (hp : destination path ∉ way target) :
    Option.Rel (fun made made' => made.OnlyFile made' path text) (fs.prepared? target)
      (fs'.prepared? target) := by
  unfold Files.prepared?
  cases hparent : parent? target with
  | none => exact .some h
  | some directory =>
      dsimp only
      rw [makeDirectory?_of_no_dot (moves_parent hparent).2,
        makeDirectory?_of_no_dot (moves_parent hparent).2]
      split
      · exact .none
      · exact h.makeAlong (isDirectory_start fs) fun hm =>
          hp ((mem_way_iff_of_parent hparent).mpr (.inl hm))

theorem walk_eq (hp : destination path ∉ here.trail parts)
    (hd : ∀ q ∈ here.trail parts, fs'.isDirectory q = fs.isDirectory q) :
    fs'.walk here parts = fs.walk here parts := by
  induction parts generalizing here with
  | nil => rfl
  | cons part parts ih =>
      obtain ⟨hhere, htrail⟩ := List.forall_mem_cons.mp hd
      by_cases hroom : fs.isDirectory here
      · rw [walk_cons hroom, walk_cons (hhere ▸ hroom),
          ih (fun hm => hp (List.mem_cons_of_mem _ hm)) htrail]
      · have hne : here ≠ destination path := fun he => hp (he ▸ List.mem_cons_self)
        rw [walk_cons_stuck hroom, walk_cons_stuck (hhere ▸ hroom), h.others here hne]

/-- The same is written to both tables once the directory of the path has been made in both. -/
theorem write? (other : String) (ha : Apart path target)
    (hroom : ∀ q ∈ way target, fs.isDirectory q ∨ q = destination target) :
    Option.Rel (fun saved saved' => saved.OnlyFile saved' path text) (fs.write? target other)
      (fs'.write? target other) := by
  obtain ⟨hp, hq⟩ := ha
  have hdirs : ∀ q ∈ way target, fs'.isDirectory q = fs.isDirectory q := by
    intro q hm
    rw [Bool.eq_iff_iff]
    refine ⟨fun hd => ?_, h.standing q⟩
    by_contra hn
    rcases hroom q hm with hr | rfl
    · exact hn hr
    · exact hq (h.new _ hd hn)
  have hlocate : fs'.locate target = fs.locate target := by
    unfold locate
    rw [h.walk_eq hp hdirs]
  have hdestination := hdirs _ (destination_mem_way target)
  cases hw : fs.write? target other with
  | none =>
      cases hw' : fs'.write? target other with
      | none => exact .none
      | some saved' =>
          obtain ⟨⟨hl, hd⟩, -⟩ := write?_eq_some_iff.mp hw'
          rw [write?_eq_some_iff.mpr ⟨⟨hlocate ▸ hl, hdestination ▸ hd⟩, rfl⟩] at hw
          cases hw
  | some saved =>
      obtain ⟨⟨hl, hd⟩, rfl⟩ := write?_eq_some_iff.mp hw
      have hsame := isDirectory_written hl hd other
      rw [← hlocate] at hl
      rw [← hdestination] at hd
      have hsame' := isDirectory_written hl hd other
      have hne : destination path ≠ destination target :=
        fun he => hp (he ▸ destination_mem_way target)
      rw [write?_eq_some_iff.mpr ⟨⟨hl, hd⟩, rfl⟩]
      refine .some ⟨?_, ?_, ?_, fun q hne => ?_, fun q hs => ?_, fun q hs hn => ?_⟩
      · exact locate_of_standing (fun q hs => (hsame' q).symm ▸ hs) h.located
      · rw [hsame']
        exact h.file
      · rw [text?, lookup_put, if_neg hne]
        exact h.text
      · rw [text?, text?, lookup_put, lookup_put]
        split
        · rfl
        · exact h.others q hne
      · rw [hsame] at hs
        rw [hsame']
        exact h.standing q hs
      · rw [hsame] at hn
        rw [hsame'] at hs
        exact h.new q hs hn

end OnlyFile

end Files

end Reconcile.Command
