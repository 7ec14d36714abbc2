import Mathlib.Data.String.Basic
import Reconcile.Proofs.Command.Directories
import Reconcile.Proofs.Texts

namespace Reconcile.Command

variable {path directory part : String} {parts : List String} {here q : Place}

/-- What stands between two slashes and leads elsewhere. -/
def IsStep (part : String) : Prop := '/' ∉ part.toList ∧ stays part = false

theorem slash_not_mem_splitToList (path : String) :
    ∀ part ∈ path.splitToList (· = '/'), '/' ∉ part.toList := by
  intro part hm
  rw [String.splitToList_of_valid, List.mem_map] at hm
  obtain ⟨p, hp, rfl⟩ := hm
  rw [String.toList_ofList]
  exact not_mem_of_mem_splitOn path.toList p hp

theorem splitToList_intercalate (hparts : ∀ part ∈ parts, '/' ∉ part.toList) (hne : parts ≠ []) :
    ("/".intercalate parts).splitToList (· = '/') = parts := by
  have hsplit : (['/'].intercalate (parts.map String.toList)).splitOn '/' =
      parts.map String.toList :=
    List.splitOn_intercalate '/' (by simpa using hparts) (by simpa using hne)
  rw [String.splitToList_of_valid, String.toList_intercalate]
  change ((['/'].intercalate (parts.map String.toList)).splitOn '/').map String.ofList = parts
  rw [hsplit, List.map_map]
  simp [Function.comp_def]

theorem exists_steps (path : String) : ∃ steps, (∀ part ∈ steps, IsStep part) ∧
    (moves path = steps ∨ moves path = "/" :: steps) := by
  have hfree := slash_not_mem_splitToList path
  have hsteps {rest : List String} (hrest : ∀ part ∈ rest, '/' ∉ part.toList) :
      ∀ part ∈ rest.filter fun part => !stays part, IsStep part := by
    intro part hm
    rw [List.mem_filter, Bool.not_eq_true'] at hm
    exact ⟨hrest part hm.1, hm.2⟩
  unfold moves components
  split
  · next head rest heq =>
      rw [heq, List.forall_mem_cons] at hfree
      exact ⟨_, hsteps hfree.2, .inr rfl⟩
  · exact ⟨_, hsteps hfree, .inl rfl⟩

theorem components_intercalate (hsteps : ∀ part ∈ parts, IsStep part) (hne : parts ≠ []) :
    components ("/".intercalate parts) = parts := by
  have hsplit := splitToList_intercalate (fun part hm => (hsteps part hm).1) hne
  unfold components
  rw [hsplit]
  split
  · cases (hsteps "" List.mem_cons_self).2
  · rfl

theorem components_intercalate_top (hsteps : ∀ part ∈ parts, IsStep part) (hne : parts ≠ []) :
    components ("/".intercalate ("/" :: parts)) = "/" :: "" :: parts := by
  have hsame : "/".intercalate ("/" :: parts) = "/".intercalate ("" :: "" :: parts) := by
    rw [String.intercalate_cons_of_ne_nil hne, String.intercalate_cons_cons,
      String.intercalate_cons_of_ne_nil hne]
    simp only [String.empty_append, String.append_assoc]
  have hfree : ∀ part ∈ "" :: "" :: parts, '/' ∉ part.toList := by
    rw [List.forall_mem_cons, List.forall_mem_cons]
    exact ⟨by decide, by decide, fun part hm => (hsteps part hm).1⟩
  rw [components, hsame, splitToList_intercalate hfree (List.cons_ne_nil _ _)]
  rfl

theorem filter_steps (hsteps : ∀ part ∈ parts, IsStep part) :
    parts.filter (fun part => !stays part) = parts :=
  List.filter_eq_self.mpr fun part hm => by rw [(hsteps part hm).2]; rfl

theorem dot_not_mem_steps (hsteps : ∀ part ∈ parts, IsStep part) : "." ∉ parts := fun hm => by
  cases (hsteps "." hm).2

theorem moves_parent (h : parent? path = some directory) :
    moves directory = (moves path).dropLast ∧ "." ∉ components directory := by
  obtain ⟨steps, hsteps, hmoves⟩ := exists_steps path
  have hdrop : ∀ part ∈ steps.dropLast, IsStep part :=
    fun part hm => hsteps part ((List.dropLast_sublist steps).subset hm)
  have hdirectory : directory = "/".intercalate (moves path).dropLast := by
    unfold parent? at h
    split at h
    · cases h
    · cases h
    · exact (Option.some.inj h).symm
  rw [hdirectory]
  rcases hmoves with hmoves | hmoves
  · rw [hmoves]
    by_cases hne : steps.dropLast = []
    · rw [hne]
      exact ⟨by decide +kernel, by decide +kernel⟩
    · rw [moves, components_intercalate hdrop hne, filter_steps hdrop]
      exact ⟨rfl, dot_not_mem_steps hdrop⟩
  · have hsome : steps ≠ [] := by
      rintro rfl
      rw [parent?, hmoves] at h
      cases h
    rw [hmoves, List.dropLast_cons_of_ne_nil hsome]
    by_cases hne : steps.dropLast = []
    · rw [hne]
      exact ⟨by decide +kernel, by decide +kernel⟩
    · rw [moves, components_intercalate_top hdrop hne]
      refine ⟨?_, ?_⟩
      · rw [List.filter_cons_of_pos (by decide), List.filter_cons_of_neg (by decide),
          filter_steps hdrop]
      · simp only [List.mem_cons, not_or]
        exact ⟨by decide, by decide, dot_not_mem_steps hdrop⟩

def destination (path : String) : Place := (components path).foldl Place.after []

/-- The places that a path leads through, its destination included. -/
def way (path : String) : List Place := Place.trail [] (components path)

namespace Place

theorem mem_trail : q ∈ here.trail parts ↔ ∃ front, front <+: parts ∧ q = front.foldl after here := by
  constructor
  · intro hq
    induction parts generalizing here with
    | nil => exact ⟨[], List.prefix_rfl, List.mem_singleton.mp hq⟩
    | cons part parts ih =>
        rcases List.mem_cons.mp hq with rfl | hq
        · exact ⟨[], List.nil_prefix, rfl⟩
        · obtain ⟨front, hf, rfl⟩ := ih hq
          exact ⟨part :: front, List.cons_prefix_cons.mpr ⟨rfl, hf⟩, rfl⟩
  · rintro ⟨front, ⟨rest, rfl⟩, rfl⟩
    induction front generalizing here with
    | nil => exact mem_trail_self here rest
    | cons part front ih => exact List.mem_cons_of_mem _ ih

theorem foldl_after_moves (here : Place) (parts : List String) :
    (parts.filter fun part => !stays part).foldl after here = parts.foldl after here := by
  induction parts generalizing here with
  | nil => rfl
  | cons part parts ih =>
      cases hs : stays part with
      | true =>
          rw [List.filter_cons_of_neg (by simp [hs]), List.foldl_cons, after_of_stays hs]
          exact ih here
      | false =>
          rw [List.filter_cons_of_pos (by simp [hs])]
          exact ih _

theorem mem_trail_dropLast (hq : q ∈ here.trail parts) :
    q ∈ here.trail parts.dropLast ∨ q = parts.foldl after here := by
  induction parts generalizing here with
  | nil => exact .inl hq
  | cons part parts ih =>
      cases parts with
      | nil =>
          rcases List.mem_cons.1 hq with rfl | hq
          · exact .inl (mem_trail_self _ _)
          · exact .inr (List.mem_singleton.1 hq)
      | cons next parts =>
          rcases List.mem_cons.1 hq with rfl | hq
          · exact .inl (mem_trail_self _ _)
          · exact (ih hq).imp_left (List.mem_cons_of_mem _)

end Place

theorem mem_way : q ∈ way path ↔ ∃ front, front <+: components path ∧ q = front.foldl Place.after [] :=
  Place.mem_trail

/-- Neither of two paths leads to the place that the other one leads to, or through it. -/
def Apart (path other : String) : Prop := destination path ∉ way other ∧ destination other ∉ way path

instance (path other : String) : Decidable (Apart path other) :=
  inferInstanceAs (Decidable (destination path ∉ way other ∧ destination other ∉ way path))

theorem destination_mem_way (path : String) : destination path ∈ way path :=
  mem_way.mpr ⟨_, List.prefix_rfl, rfl⟩

/-- The places on the way to a path are its destination and those on the way to its directory. -/
theorem mem_way_iff_of_parent (h : parent? path = some directory) :
    q ∈ way path ↔ q ∈ way directory ∨ q = destination path := by
  have hmoves := (moves_parent h).1
  have hfilter (p : String) : q ∈ Place.trail [] (moves p) ↔ q ∈ way p := Place.mem_trail_moves
  constructor
  · intro hq
    refine (Place.mem_trail_dropLast ((hfilter path).2 hq)).imp (fun hq => ?_) fun hq => ?_
    · rw [← hmoves] at hq
      exact (hfilter directory).1 hq
    · rw [hq, moves, Place.foldl_after_moves]
      rfl
  · rintro (hq | rfl)
    · have hq := (hfilter directory).2 hq
      rw [hmoves] at hq
      exact (hfilter path).1 (Place.trail_dropLast_subset _ _ hq)
    · exact destination_mem_way path

theorem mem_way_of_no_parent (h : parent? path = none) (hq : q ∈ way path) : q = [] ∨ q = ["/"] := by
  have hq := Place.mem_trail_moves.2 hq
  change q ∈ Place.trail [] (moves path) at hq
  unfold parent? at h
  split at h
  · next hm =>
      rw [hm] at hq
      exact .inl (List.mem_singleton.1 hq)
  · next hm =>
      rw [hm, show Place.trail [] ["/"] = [[], ["/"]] by decide] at hq
      exact List.mem_pair.mp hq
  · cases h

end Reconcile.Command
