import Reconcile.Json.Record
import Reconcile.Proofs.Json.Parsing
import Reconcile.Proofs.Sequencing

namespace Reconcile.Json

/-- What is read the one way is read the other way too. -/
def Preserves {α : Type} (x y : Option α) : Prop := ∀ a, x = some a → y = some a

namespace Preserves

variable {α β : Type} {x y z : Option α} {f g : α → Option β}

theorem refl (x : Option α) : Preserves x x := fun _ h => h

theorem trans (h : Preserves x y) (h' : Preserves y z) : Preserves x z := fun a ha => h' a (h a ha)

theorem bind (h : Preserves x y) (hf : ∀ a, Preserves (f a) (g a)) : Preserves (x >>= f) (y >>= g) := by
  intro b hb
  obtain ⟨a, ha, hb⟩ := Option.bind_eq_some_iff.mp hb
  exact Option.bind_eq_some_iff.mpr ⟨a, h a ha, hf a b hb⟩

theorem map (h : Preserves x y) (f : α → β) : Preserves (x.map f) (y.map f) := by
  intro b hb
  obtain ⟨a, ha, rfl⟩ := Option.map_eq_some_iff.mp hb
  rw [h a ha, Option.map_some]

theorem mapM {read : α → Option β} {a b : α} (h : Preserves (read a) (read b)) (pre post : List α) :
    Preserves ((pre ++ a :: post).mapM read) ((pre ++ b :: post).mapM read) := by
  rw [List.mapM_append, List.mapM_append, List.mapM_cons, List.mapM_cons]
  exact (refl _).bind fun _ => (h.bind fun _ => refl _).bind fun _ => refl _

end Preserves

namespace Record

variable {fields : List String} {ms : List (Text × Value)} {r : Record} {key : String}

def field? (fields : List String) (m : Text × Value) : Option (String × Value) :=
  (m.1.map (·, m.2)).filter (·.1 ∈ fields)

theorem textMembers?_eq_some_iff {ns : List (String × Value)} :
    textMembers? ms = some ns ↔
      (∀ m ∈ ms, m.1.isSome = true) ∧ ns = ms.filterMap fun m => m.1.map (·, m.2) := by
  induction ms generalizing ns with
  | nil => exact ⟨fun h => ⟨by simp, (Option.some.inj h).symm⟩, fun h => congrArg some h.2.symm⟩
  | cons m ms ih =>
      obtain ⟨_ | key, v⟩ := m
      · simp [textMembers?]
      · have hcons : textMembers? ((some key, v) :: ms) = (textMembers? ms).map ((key, v) :: ·) := by
          rw [Option.map_eq_bind]
          exact List.mapM_cons
        rw [hcons, Option.map_eq_some_iff]
        simp [ih, and_assoc, @eq_comm _ ns]

theorem ofMembers?_eq_some_iff :
    ofMembers? fields ms = some r ↔
      (∀ m ∈ ms, m.1.isSome = true) ∧ (r.map Prod.fst).Nodup ∧ r = ms.filterMap (field? fields) := by
  have hgiven : (ms.filterMap fun m => m.1.map (·, m.2)).filter (·.1 ∈ fields) =
      ms.filterMap (field? fields) := List.filter_filterMap
  rw [ofMembers?, Option.bind_eq_bind, Option.bind_eq_some_iff]
  constructor
  · rintro ⟨ns, hns, h⟩
    obtain ⟨htexts, rfl⟩ := textMembers?_eq_some_iff.mp hns
    rw [hgiven] at h
    by_cases hnodup : ((ms.filterMap (field? fields)).map Prod.fst).Nodup
    · simp only [hnodup] at h
      cases h
      exact ⟨htexts, hnodup, rfl⟩
    · simp [hnodup] at h
  · rintro ⟨htexts, hnodup, rfl⟩
    refine ⟨_, textMembers?_eq_some_iff.mpr ⟨htexts, rfl⟩, ?_⟩
    simp [hgiven, hnodup]

variable {v w : Value} {A B : Record} {pre post : List (Text × Value)}

theorem filterMap_insert (h : key ∈ fields) :
    (pre ++ (some key, v) :: post).filterMap (field? fields) =
      pre.filterMap (field? fields) ++ (key, v) :: post.filterMap (field? fields) := by
  have hfield : field? fields (some key, v) = some (key, v) := by simp [field?, h]
  rw [List.filterMap_append, List.filterMap_cons_some hfield]

theorem filterMap_insert_of_notMem (h : key ∉ fields) :
    (pre ++ (some key, v) :: post).filterMap (field? fields) =
      (pre ++ post).filterMap (field? fields) := by
  have hfield : field? fields (some key, v) = none := by simp [field?, h]
  rw [List.filterMap_append, List.filterMap_cons_none hfield, List.filterMap_append]

theorem lookup_eq_of_perm {r' : Record} (h : r.Perm r') (hn : (r.map Prod.fst).Nodup) :
    r'.lookup key = r.lookup key := by
  have hn' := (h.map Prod.fst).nodup_iff.mp hn
  ext v
  rw [lookup_eq_some_iff_mem hn', lookup_eq_some_iff_mem hn, h.mem_iff]

theorem lookup_insert_self (h : ((A ++ (key, v) :: B).map Prod.fst).Nodup) :
    (A ++ (key, v) :: B).lookup key = some v ∧ (A ++ B).lookup key = none := by
  constructor
  · rw [lookup_eq_some_iff_mem h]
    simp
  · have hperm : ((A ++ (key, v) :: B).map Prod.fst).Perm (key :: (A ++ B).map Prod.fst) :=
      List.perm_middle.map Prod.fst
    have hnot := (List.nodup_cons.mp (hperm.nodup_iff.mp h)).1
    rw [List.lookup_eq_none_iff]
    intro m hm
    rw [bne_iff_ne]
    rintro rfl
    exact hnot (List.mem_map_of_mem hm)

theorem lookup_insert_of_ne {field : String} (h : field ≠ key) :
    (A ++ (key, v) :: B).lookup field = (A ++ B).lookup field := by
  have hne : (field == key) = false := by simpa using h
  simp [List.lookup_append, List.lookup_cons, hne]

end Record

/-- Members of an object are put in another order, one that has its default is left out, or the value
of one is given in other words. -/
inductive Alters (defaults : List (String × Value)) (K : String → Value → Value → Prop) :
    List (Text × Value) → List (Text × Value) → Prop
  | permute {ms ns : List (Text × Value)} (h : ms.Perm ns) : Alters defaults K ms ns
  | leave (pre post : List (Text × Value)) {key : String} {v : Value} (h : (key, v) ∈ defaults) :
      Alters defaults K (pre ++ (some key, v) :: post) (pre ++ post)
  | change (pre post : List (Text × Value)) {key : String} {v w : Value} (h : K key v w) :
      Alters defaults K (pre ++ (some key, v) :: post) (pre ++ (some key, w) :: post)

/-- Each field of a record is the same in another one, or left out there, or given in other words. -/
def Record.Tells (defaults : List (String × Value)) (K : String → Value → Value → Prop)
    (r r' : Record) : Prop :=
  ∀ field, r'.lookup field = r.lookup field ∨
    (∃ v, (field, v) ∈ defaults ∧ r.lookup field = some v ∧ r'.lookup field = none) ∨
      ∃ v w, K field v w ∧ r.lookup field = some v ∧ r'.lookup field = some w

variable {defaults : List (String × Value)} {K : String → Value → Value → Prop}
  {ms ns : List (Text × Value)} {fields : List String} {r r' : Record}

open Record

theorem Alters.tells (h : Alters defaults K ms ns) (hr : ofMembers? fields ms = some r) :
    ∃ r', ofMembers? fields ns = some r' ∧ r.Tells defaults K r' := by
  obtain ⟨htexts, hnodup, rfl⟩ := ofMembers?_eq_some_iff.mp hr
  cases h with
  | permute h =>
      have hperm := h.filterMap (field? fields)
      refine ⟨_, ofMembers?_eq_some_iff.mpr ⟨fun m hm => htexts m (h.mem_iff.mpr hm),
        (hperm.map Prod.fst).nodup_iff.mp hnodup, rfl⟩, fun field => .inl ?_⟩
      exact lookup_eq_of_perm hperm hnodup
  | @leave pre post key v h =>
      have htexts' : ∀ m ∈ pre ++ post, m.1.isSome = true := fun m hm => htexts m (by grind)
      have hsub : (pre ++ post).Sublist (pre ++ (some key, v) :: post) := by simp
      refine ⟨_, ofMembers?_eq_some_iff.mpr ⟨htexts', hnodup.sublist
        ((hsub.filterMap _).map Prod.fst), rfl⟩, fun field => ?_⟩
      by_cases hkey : key ∈ fields
      · rw [filterMap_insert hkey] at hnodup ⊢
        rw [List.filterMap_append]
        by_cases hf : field = key
        · subst hf
          obtain ⟨hv, hnone⟩ := lookup_insert_self hnodup
          exact .inr (.inl ⟨v, h, hv, hnone⟩)
        · exact .inl (lookup_insert_of_ne hf).symm
      · rw [filterMap_insert_of_notMem hkey]
        exact .inl rfl
  | @change pre post key v w h =>
      have htexts' : ∀ m ∈ pre ++ (some key, w) :: post, m.1.isSome = true := by
        intro m hm
        rcases List.mem_append.mp hm with hm | hm
        · exact htexts m (by grind)
        · rcases List.mem_cons.mp hm with rfl | hm
          · rfl
          · exact htexts m (by grind)
      by_cases hkey : key ∈ fields
      · rw [filterMap_insert hkey] at hnodup ⊢
        have hnodup' : ((pre.filterMap (field? fields) ++
            (key, w) :: post.filterMap (field? fields)).map Prod.fst).Nodup := by
          simpa using hnodup
        refine ⟨_, ofMembers?_eq_some_iff.mpr ⟨htexts', hnodup', (filterMap_insert hkey).symm⟩,
          fun field => ?_⟩
        by_cases hf : field = key
        · subst hf
          exact .inr (.inr ⟨v, w, h, (lookup_insert_self hnodup).1, (lookup_insert_self hnodup').1⟩)
        · exact .inl ((lookup_insert_of_ne hf).trans (lookup_insert_of_ne hf).symm)
      · rw [filterMap_insert_of_notMem hkey] at hnodup ⊢
        exact ⟨_, ofMembers?_eq_some_iff.mpr
          ⟨htexts', hnodup, (filterMap_insert_of_notMem hkey).symm⟩, fun field => .inl rfl⟩

theorem Alters.record {α : Type} {read : Record → Option α} (h : Alters defaults K ms ns)
    (hread : ∀ r r', r.Tells defaults K r' → Preserves (read r) (read r')) :
    Preserves ((Value.object ms).record? fields >>= read)
      ((Value.object ns).record? fields >>= read) := by
  intro a ha
  obtain ⟨r, hr, ha⟩ := Option.bind_eq_some_iff.mp ha
  obtain ⟨r', hr', ht⟩ := h.tells hr
  exact Option.bind_eq_some_iff.mpr ⟨r', hr', hread r r' ht a ha⟩

def orNull {α : Type} (read : Value → Option α) : Value → Option (Option α)
  | .null => some none
  | v => (read v).map some

theorem Record.optional_eq {α : Type} (r : Record) (field : String) (read : Value → Option α) :
    r.optional field read = r.withDefault field none (orNull read) := by
  unfold Record.optional Record.withDefault
  cases r.lookup field with
  | none => rfl
  | some v => cases v <;> rfl

namespace Record.Tells

variable {α : Type} {field : String} {read : Value → Option α}

theorem withDefault (h : r.Tells defaults K r') {a : α} (d : Value) (ha : read d = some a)
    (hd : ∀ v, (field, v) ∈ defaults → v = d)
    (hK : ∀ v w, K field v w → Preserves (read v) (read w)) :
    Preserves (r.withDefault field a read) (r'.withDefault field a read) := by
  unfold Record.withDefault
  obtain he | ⟨v, hv, hr, hr'⟩ | ⟨v, w, hk, hr, hr'⟩ := h field
  · rw [he]
    exact .refl _
  · rw [hr, hr']
    simp only [hd v hv, ha]
    exact .refl _
  · rw [hr, hr']
    exact hK v w hk

theorem required (h : r.Tells defaults K r') (hd : ∀ v, (field, v) ∉ defaults)
    (hK : ∀ v w, K field v w → Preserves (read v) (read w)) :
    Preserves (r.required field read) (r'.required field read) := by
  unfold Record.required
  obtain he | ⟨v, hv, -⟩ | ⟨v, w, hk, hr, hr'⟩ := h field
  · rw [he]
    exact .refl _
  · exact absurd hv (hd v)
  · rw [hr, hr']
    exact hK v w hk

theorem optional (h : r.Tells defaults K r') (hd : ∀ v, (field, v) ∈ defaults → v = .null)
    (hK : ∀ v w, K field v w → Preserves (orNull read v) (orNull read w)) :
    Preserves (r.optional field read) (r'.optional field read) := by
  rw [optional_eq, optional_eq]
  exact h.withDefault .null rfl hd hK

end Record.Tells

/-- What a value is read as: one record of a kind, or a list of them. -/
inductive Shape (κ : Type) where
  | record (k : κ)
  | list (k : κ)

/-- What readers know of records: the members that hold records in turn, and the members that a
record with the given members may leave out. -/
structure Format (κ : Type) where
  member : κ → String → Option (Shape κ)
  defaults : κ → List (Text × Value) → List (String × Value)

variable {κ : Type} {F : Format κ} {s : Shape κ} {v w : Value}

/-- The same value in other words: members are put in another order, at any depth, and members that
have their default are left out. -/
inductive Format.Rewords (F : Format κ) : Shape κ → Value → Value → Prop
  | refl (s : Shape κ) (v : Value) : F.Rewords s v v
  | trans {s : Shape κ} {u v w : Value} (h : F.Rewords s u v) (h' : F.Rewords s v w) :
      F.Rewords s u w
  | permute {k : κ} {ms ns : List (Text × Value)} (h : ms.Perm ns) :
      F.Rewords (.record k) (.object ms) (.object ns)
  | leave {k : κ} (pre post : List (Text × Value)) {key : String} {v : Value}
      (h : (key, v) ∈ F.defaults k (pre ++ (some key, v) :: post)) :
      F.Rewords (.record k) (.object (pre ++ (some key, v) :: post)) (.object (pre ++ post))
  | member {k : κ} {s : Shape κ} (pre post : List (Text × Value)) {key : String} {v w : Value}
      (hs : F.member k key = some s) (h : F.Rewords s v w) :
      F.Rewords (.record k) (.object (pre ++ (some key, v) :: post))
        (.object (pre ++ (some key, w) :: post))
  | item {k : κ} (pre post : List Value) {v w : Value} (h : F.Rewords (.record k) v w) :
      F.Rewords (.list k) (.array (pre ++ v :: post)) (.array (pre ++ w :: post))

namespace Shape

variable {M : κ → Type}

def Meaning (M : κ → Type) : Shape κ → Type
  | record k => M k
  | list k => List (M k)

def read? (read : (k : κ) → Value → Option (M k)) : (s : Shape κ) → Value → Option (s.Meaning M)
  | record k => read k
  | list k => Value.list? (read k)

end Shape

/-- A member whose value is given in other words, from which the same is read. -/
def Format.Retells {M : κ → Type} (F : Format κ) (read : (k : κ) → Value → Option (M k)) (k : κ)
    (key : String) (v w : Value) : Prop :=
  ∃ s, F.member k key = some s ∧ Preserves (s.read? read v) (s.read? read w)

theorem Format.Retells.preserves {M : κ → Type} {read : (k : κ) → Value → Option (M k)} {k : κ}
    {key : String} (h : F.Retells read k key v w) (hs : F.member k key = some s) :
    Preserves (s.read? read v) (s.read? read w) := by
  obtain ⟨s', hs', h⟩ := h
  cases hs'.symm.trans hs
  exact h

/-- A reader that reads the same from a record after each change to its members reads the same from a
value in other words. -/
theorem Format.Rewords.preserves {M : κ → Type} {read : (k : κ) → Value → Option (M k)}
    (hread : ∀ k ms ns, Alters (F.defaults k ms) (F.Retells read k) ms ns →
      Preserves (read k (.object ms)) (read k (.object ns)))
    (h : F.Rewords s v w) : Preserves (s.read? read v) (s.read? read w) := by
  induction h with
  | refl s v => exact .refl _
  | trans _ _ ih ih' => exact ih.trans ih'
  | permute h => exact hread _ _ _ (.permute h)
  | leave pre post h => exact hread _ _ _ (.leave pre post h)
  | member pre post hs _ ih => exact hread _ _ _ (.change pre post ⟨_, hs, ih⟩)
  | item pre post _ ih => exact ih.mapM pre post

theorem Format.Rewords.written (h : F.Rewords s v w) (hv : Written v) : Written w := by
  induction h with
  | refl s v => exact hv
  | trans _ _ ih ih' => exact ih' (ih hv)
  | permute h =>
      rw [written_object_iff] at hv ⊢
      exact fun m hm => hv m (h.mem_iff.mpr hm)
  | leave pre post h =>
      rw [written_object_iff] at hv ⊢
      exact fun m hm => hv m (by grind)
  | member pre post hs _ ih =>
      rw [written_object_iff] at hv ⊢
      simp only [List.forall_mem_append, List.forall_mem_cons] at hv ⊢
      exact ⟨hv.1, ⟨rfl, ih hv.2.1.2⟩, hv.2.2⟩
  | item pre post _ ih =>
      rw [written_array_iff] at hv ⊢
      simp only [List.forall_mem_append, List.forall_mem_cons] at hv ⊢
      exact ⟨hv.1, ih hv.2.1, hv.2.2⟩

end Reconcile.Json
