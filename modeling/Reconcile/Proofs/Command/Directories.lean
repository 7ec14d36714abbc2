import Reconcile.Command.Run
import Reconcile.Command.Session

namespace Reconcile.Command

namespace Place

def after (here : Place) (part : String) : Place :=
  if stays part then here else if part = ".." then above here else here ++ [part]

/-- The places that parts of a path lead through, the last one included. -/
def trail (here : Place) : List String → List Place
  | [] => [here]
  | part :: parts => here :: trail (here.after part) parts

theorem mem_trail_self (here : Place) (parts : List String) : here ∈ here.trail parts := by
  cases parts <;> simp [trail]

theorem after_of_stays {here : Place} {part : String} (hs : stays part = true) : here.after part = here := by
  simp [after, hs]

theorem mem_trail_moves {q here : Place} {parts : List String} :
    q ∈ here.trail (parts.filter fun part => !stays part) ↔ q ∈ here.trail parts := by
  induction parts generalizing here with
  | nil => exact Iff.rfl
  | cons part parts ih =>
      cases hs : stays part with
      | true =>
          rw [List.filter_cons_of_neg (by simp [hs]), trail, after_of_stays hs, ih, List.mem_cons]
          exact (or_iff_right_of_imp fun hq => hq ▸ mem_trail_self here parts).symm
      | false =>
          rw [List.filter_cons_of_pos (by simp [hs]), trail, trail, List.mem_cons, List.mem_cons, ih]

theorem trail_dropLast_subset (here : Place) (parts : List String) :
    here.trail parts.dropLast ⊆ here.trail parts := by
  induction parts generalizing here with
  | nil => exact List.Subset.refl _
  | cons part parts ih =>
      cases parts with
      | nil => simp [trail]
      | cons next parts => exact List.cons_subset_cons here (ih _)

end Place

namespace Files

variable {fs fs' made : Files} {here place : Place} {path : String} {parts : List String}

theorem isDirectory_start (fs : Files) : fs.isDirectory [] := by simp [isDirectory]

theorem isDirectory_iff : fs.isDirectory place = true ↔
    place = ["/"] ∨ (∀ part ∈ place, part = "..") ∨ (∃ d ∈ fs.directories, place <+: d) ∨
      ∃ file ∈ fs.texts, place <+: file.1 ∧ place.length < file.1.length := by
  simp [isDirectory, or_assoc]

theorem isDirectory_of_isPrefix {below : Place} (h : fs.isDirectory below)
    (hp : place <+: below) : fs.isDirectory place := by
  rw [isDirectory_iff] at h ⊢
  obtain rfl | h | ⟨d, hd, hb⟩ | ⟨file, hf, hb, hl⟩ := h
  · obtain rfl | hp := (List.prefix_concat_iff : place <+: [] ++ ["/"] ↔ _).1 hp
    · exact .inl rfl
    · obtain rfl := List.prefix_nil.1 hp
      exact .inr (.inl nofun)
  · exact .inr (.inl fun part hm => h part (hp.subset hm))
  · exact .inr (.inr (.inl ⟨d, hd, hp.trans hb⟩))
  · exact .inr (.inr (.inr ⟨file, hf, hp.trans hb, Nat.lt_of_le_of_lt hp.length_le hl⟩))

theorem isDirectory_above (h : fs.isDirectory place) : fs.isDirectory (Place.above place) := by
  unfold Place.above
  split
  · exact h
  · split
    · next hup =>
        have hup : ∀ part ∈ place, part = ".." := by simpa using hup
        exact isDirectory_iff.2 (.inr (.inl (by simpa [or_imp, forall_and] using hup)))
    · exact isDirectory_of_isPrefix h (List.dropLast_prefix place)

/-- Some directories on a trail are new. No text stood where one of them is now. -/
structure Adds (fs made : Files) (trail : List Place) : Prop where
  texts : made.texts = fs.texts
  standing : ∀ p, fs.isDirectory p → made.isDirectory p
  new : ∀ p, made.isDirectory p → ¬ fs.isDirectory p → p ∈ trail ∧ fs.text? p = none

namespace Adds

variable {trail trail' : List Place}

theorem refl (fs : Files) (trail : List Place) : fs.Adds fs trail where
  texts := rfl
  standing _ h := h
  new _ h hn := absurd h hn

theorem mono (h : fs.Adds made trail) (ht : trail ⊆ trail') : fs.Adds made trail' where
  texts := h.texts
  standing := h.standing
  new p hm hn := ⟨ht (h.new p hm hn).1, (h.new p hm hn).2⟩

theorem text? (h : fs.Adds made trail) (p : Place) : made.text? p = fs.text? p := by
  simp only [Files.text?, h.texts]

theorem trans (h : fs.Adds fs' trail) (h' : fs'.Adds made trail) : fs.Adds made trail where
  texts := h'.texts.trans h.texts
  standing p hp := h'.standing p (h.standing p hp)
  new p hm hn := by
    by_cases hp : fs'.isDirectory p
    · exact h.new p hp hn
    · obtain ⟨ht, hx⟩ := h'.new p hm hp
      exact ⟨ht, h.text? p ▸ hx⟩

end Adds

theorem adds_directory {part : String} (hh : fs.isDirectory here)
    (hx : fs.text? (here ++ [part]) = none) :
    fs.Adds { fs with directories := (here ++ [part]) :: fs.directories.erase here }
      [here ++ [part]] where
  texts := rfl
  standing p hp := by
    rw [isDirectory_iff] at hp ⊢
    obtain rfl | h | ⟨d, hd, hb⟩ | h := hp
    · exact .inl rfl
    · exact .inr (.inl h)
    · refine .inr (.inr (.inl ?_))
      by_cases he : d = here
      · subst he
        exact ⟨d ++ [part], List.mem_cons_self, hb.trans (List.prefix_append d [part])⟩
      · exact ⟨d, List.mem_cons_of_mem _ ((List.mem_erase_of_ne he).2 hd), hb⟩
    · exact .inr (.inr (.inr h))
  new p hm hn := by
    rw [isDirectory_iff] at hm
    obtain rfl | h | ⟨d, hd, hb⟩ | h := hm
    · exact absurd (isDirectory_iff.2 (.inl rfl)) hn
    · exact absurd (isDirectory_iff.2 (.inr (.inl h))) hn
    · obtain rfl | hd := List.mem_cons.1 hd
      · obtain rfl | hb := List.prefix_concat_iff.1 hb
        · exact ⟨List.mem_cons_self, hx⟩
        · exact absurd (isDirectory_of_isPrefix hh hb) hn
      · have hd : ∃ d ∈ fs.directories, p <+: d := ⟨d, List.mem_of_mem_erase hd, hb⟩
        exact absurd (isDirectory_iff.2 (.inr (.inr (.inl hd)))) hn
    · exact absurd (isDirectory_iff.2 (.inr (.inr (.inr h))) : fs.isDirectory p) hn

theorem makeAlong_step {part : String} (hh : fs.isDirectory here)
    (h : fs.makeAlong here (part :: parts) = some made) :
    ∃ fs', fs.Adds fs' [here.after part] ∧ fs'.isDirectory (here.after part) ∧
      fs'.makeAlong (here.after part) parts = some made := by
  rw [makeAlong] at h
  unfold Place.after
  split at h
  · next hs => exact ⟨fs, .refl fs _, by simpa only [hs, if_true] using ⟨hh, h⟩⟩
  · next hs =>
      simp only [hs, Bool.false_eq_true, if_false]
      split at h
      · next hu => exact ⟨fs, .refl fs _, by simpa only [hu, if_true] using ⟨isDirectory_above hh, h⟩⟩
      · next hu =>
          simp only [hu, if_false]
          dsimp only at h
          split at h
          · cases h
          · next hx =>
              split at h
              · next hd => exact ⟨fs, .refl fs _, hd, h⟩
              · have hx : fs.text? (here ++ [part]) = none := by simp at hx; exact hx.2
                refine ⟨_, adds_directory hh hx, isDirectory_iff.2 (.inr (.inr (.inl ?_))), h⟩
                exact ⟨here ++ [part], List.mem_cons_self, List.prefix_rfl⟩

theorem adds_makeAlong (hh : fs.isDirectory here) (h : fs.makeAlong here parts = some made) :
    fs.Adds made (here.trail parts) := by
  induction parts generalizing fs here with
  | nil =>
      simp only [makeAlong, Option.some.injEq] at h
      exact h ▸ Adds.refl fs _
  | cons part parts ih =>
      obtain ⟨fs', ha, hd, h⟩ := makeAlong_step hh h
      have hr : fs'.Adds made (here.trail (part :: parts)) :=
        (ih hd h).mono (List.subset_cons_self _ _)
      refine (ha.mono ?_).trans hr
      exact List.cons_subset.2 ⟨List.mem_cons_of_mem _ (Place.mem_trail_self _ _), List.nil_subset _⟩

theorem adds_makeDirectory (h : fs.makeDirectory? path = some made) :
    fs.Adds made (Place.trail [] (components path)) := by
  unfold makeDirectory? at h
  cases hc : checkPath path with
  | error =>
      rw [hc] at h
      cases h
  | ok =>
      rw [hc] at h
      by_cases hdot : endsInDot path = true
      · rw [if_pos hdot] at h
        obtain ⟨fs', hm, h⟩ := Option.bind_eq_some_iff.1 h
        obtain ⟨_, -, h⟩ := Option.bind_eq_some_iff.1 h
        cases h
        refine (adds_makeAlong (isDirectory_start fs) hm).mono ?_
        exact fun q hq => Place.mem_trail_moves.1 (Place.trail_dropLast_subset _ _ hq)
      · rw [if_neg hdot] at h
        exact adds_makeAlong (isDirectory_start fs) h

end Files

end Reconcile.Command
