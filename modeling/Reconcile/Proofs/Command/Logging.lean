import Reconcile.Document.Build
import Reconcile.Proofs.Command.Directories

namespace Reconcile.Command

namespace Files

variable {fs made logged : Files} {here place : Place} {path : String} {parts : List String}

def tree (fs : Files) (path : String) : Except Failure Forest :=
  match fs.read path with
  | .error cause => .error (.unreadable path cause)
  | .ok text =>
      match Document.load text with
      | .ok tree => .ok tree
      | .error e => .error (.document e)

/-- What may differ once a log has been opened in a directory, if in any: the directories on the way
to it and an empty text where the log is. Nothing that was there is gone or changed. -/
structure OnlyLog (fs logged : Files) (directory : Option String) : Prop where
  kept : ∀ p text, fs.text? p = some text → logged.text? p = some text
  added : ∀ p text, logged.text? p = some text → fs.text? p = none →
    text = "" ∧ ∃ d, directory = some d ∧ logged.locate (join d logName) = .ok p
  standing : ∀ p, fs.isDirectory p → logged.isDirectory p
  new : ∀ p, logged.isDirectory p → ¬ fs.isDirectory p →
    fs.text? p = none ∧ ∃ d, directory = some d ∧ p ∈ Place.trail [] (components d)

theorem OnlyLog.refl (fs : Files) (directory : Option String) : fs.OnlyLog fs directory where
  kept _ _ h := h
  added _ _ h hn := by rw [h] at hn; cases hn
  standing _ h := h
  new _ h hn := absurd h hn

def isTooLong (part : String) : Bool :=
  !stays part && part ≠ ".." && nameLimit < part.utf8ByteSize

theorem walk_cons {part : String} (hd : fs.isDirectory here) : fs.walk here (part :: parts) =
    if isTooLong part then .error .nameTooLong else fs.walk (here.after part) parts := by
  rw [walk, if_pos hd]
  unfold isTooLong Place.after
  cases stays part
  · by_cases hu : part = ".." <;> by_cases hl : nameLimit < part.utf8ByteSize <;> simp [hu, hl]
  · simp

theorem walk_cons_stuck {part : String} (hd : ¬ fs.isDirectory here) :
    fs.walk here (part :: parts) =
      .error (if (fs.text? here).isSome then .notADirectory else .missing) := by
  rw [walk, if_neg hd]
  split <;> rfl

theorem walk_of_standing (hs : ∀ p, fs.isDirectory p → logged.isDirectory p)
    (h : fs.walk here parts = .ok place) : logged.walk here parts = .ok place := by
  induction parts generalizing here with
  | nil => exact h
  | cons part parts ih =>
      by_cases hd : fs.isDirectory here
      · rw [walk_cons hd] at h
        rw [walk_cons (hs here hd)]
        split at h
        · cases h
        · next hl => rw [if_neg hl]; exact ih h
      · rw [walk_cons_stuck hd] at h
        cases h

theorem walk_of_locate (h : fs.locate path = .ok place) :
    fs.walk [] (components path) = .ok place := by
  unfold locate at h
  cases hp : checkPath path with
  | error _ => rw [hp] at h; cases h
  | ok _ => rw [hp] at h; exact h

theorem locate_of_standing (hs : ∀ p, fs.isDirectory p → logged.isDirectory p)
    (h : fs.locate path = .ok place) : logged.locate path = .ok place := by
  have hw := walk_of_standing hs (walk_of_locate h)
  unfold locate at h ⊢
  cases hp : checkPath path with
  | error _ => rw [hp] at h; cases h
  | ok _ => exact hw

namespace OnlyLog

variable {directory : Option String}

end OnlyLog

namespace OnlyLog

variable {directory : Option String}

end OnlyLog

theorem lookup_put (texts : List (Place × String)) (place p : Place) (text : String) :
    (put texts place text).lookup p = if p = place then some text else texts.lookup p := by
  induction texts with
  | nil =>
      by_cases hp : p = place
      · simp [put, hp]
      · have hb : (p == place) = false := beq_false_of_ne hp
        simp [put, List.lookup_cons, hp, hb]
  | cons file rest ih =>
      obtain ⟨q, t⟩ := file
      unfold put
      by_cases hq : q = place
      · subst hq
        by_cases hp : p = q
        · simp [hp]
        · have hb : (p == q) = false := beq_false_of_ne hp
          simp [List.lookup_cons, hp, hb]
      · by_cases hp : p = q
        · subst hp
          simp [hq]
        · have hb : (p == q) = false := beq_false_of_ne hp
          simp [List.lookup_cons, hq, hb, ih]

theorem map_fst_put (texts : List (Place × String)) (place : Place) (text : String) :
    (put texts place text).map Prod.fst =
      texts.map Prod.fst ++ if place ∈ texts.map Prod.fst then [] else [place] := by
  induction texts with
  | nil => rfl
  | cons file rest ih =>
      unfold put
      by_cases hp : file.1 = place
      · simp [hp]
      · have hother : place ∈ (file :: rest).map Prod.fst ↔ place ∈ rest.map Prod.fst := by
          rw [List.map_cons, List.mem_cons, or_iff_right (Ne.symm hp)]
        rw [if_neg hp, List.map_cons, ih]
        simp only [hother]
        rfl

theorem mem_map_fst_put {texts : List (Place × String)} {p : Place} {text : String} :
    p ∈ (put texts place text).map Prod.fst ↔ p ∈ texts.map Prod.fst ∨ p = place := by
  rw [map_fst_put, List.mem_append]
  split
  · next hm =>
      rw [or_iff_left List.not_mem_nil]
      exact (or_iff_left_of_imp fun he => he ▸ hm).symm
  · rw [List.mem_singleton]

theorem isDirectory_of_walk (hh : fs.isDirectory here ∨ fs.isDirectory here.dropLast)
    (h : fs.walk here parts = .ok place) :
    fs.isDirectory place ∨ fs.isDirectory place.dropLast := by
  induction parts generalizing here with
  | nil => cases h; exact hh
  | cons part parts ih =>
      by_cases hd : fs.isDirectory here
      · rw [walk_cons hd] at h
        split at h
        · cases h
        · refine ih ?_ h
          unfold Place.after
          split
          · exact .inl hd
          · split
            · exact .inl (isDirectory_above hd)
            · exact .inr (by simpa using hd)
      · rw [walk_cons_stuck hd] at h
        cases h

theorem isDirectory_iff_places : fs.isDirectory place = true ↔
    place = ["/"] ∨ (∀ part ∈ place, part = "..") ∨ (∃ d ∈ fs.directories, place <+: d) ∨
      ∃ q ∈ fs.texts.map Prod.fst, place <+: q ∧ place.length < q.length := by
  rw [isDirectory_iff]
  simp

theorem isDirectory_put (text : String) (hd : fs.isDirectory place.dropLast) (p : Place) :
    Files.isDirectory { fs with texts := put fs.texts place text } p = fs.isDirectory p := by
  rw [Bool.eq_iff_iff, isDirectory_iff_places, isDirectory_iff_places]
  constructor
  · rintro (h | h | h | ⟨q, hq, hp, hl⟩)
    · exact .inl h
    · exact .inr (.inl h)
    · exact .inr (.inr (.inl h))
    · obtain hq | rfl := mem_map_fst_put.1 hq
      · exact .inr (.inr (.inr ⟨q, hq, hp, hl⟩))
      · have hp : p <+: q.dropLast := by
          refine List.prefix_of_prefix_length_le hp (List.dropLast_prefix q) ?_
          simp only [List.length_dropLast]
          omega
        exact isDirectory_iff_places.1 (isDirectory_of_isPrefix hd hp)
  · refine Or.imp_right (Or.imp_right (Or.imp_right ?_))
    rintro ⟨q, hq, h⟩
    exact ⟨q, mem_map_fst_put.2 (.inl hq), h⟩

end Files

end Reconcile.Command
