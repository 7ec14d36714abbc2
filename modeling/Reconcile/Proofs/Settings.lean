import Reconcile.Proofs.Document.RoundTrip
import Reconcile.Proofs.Json.Rewording
import Reconcile.Settings

namespace Reconcile

open Json Json.Value Json.Record

theorem Keep.lookup_name (k : Keep) : Keep.table.lookup k.name = some k := by
  cases k <;> rfl

namespace Settings

theorem read?_write (s : Settings) : read? s.write = some s := by
  obtain ⟨⟨⟨left, right⟩, keep⟩, normalize, ⟨indentWidth, showLocations, sigil⟩, logDirectory⟩ := s
  have hmerge : readMerge? (.ofMembers [("left_label", .ofString left),
      ("right_label", .ofString right), ("keep", .ofString keep.name)]) =
        some ⟨⟨left, right⟩, keep⟩ := by
    rw [readMerge?, record?_ofMembers (by simp) (by simp)]
    simp [List.lookup_cons, withDefault, choice?_ofString, Keep.lookup_name]
  have hnormalize : readNormalize? (.ofMembers [("enabled", .bool normalize)]) = some normalize := by
    rw [readNormalize?, record?_ofMembers (by simp) (by simp)]
    simp [withDefault, bool?]
  have hstyle : readStyle? (.ofMembers [("indent_width", .ofNat indentWidth.toNat),
      ("print_locs", .bool showLocations), ("typed_sigil", .ofOption .ofString sigil)]) =
        some ⟨indentWidth, showLocations, sigil⟩ := by
    rw [readStyle?, record?_ofMembers (by simp) (by simp)]
    simp [List.lookup_cons, withDefault, optional_cons_ne, optional_cons_self, bool?, word?_ofNat]
  have hlogging : readLogging? (.ofMembers [("dir", .ofOption .ofString logDirectory)]) =
      some logDirectory := by
    rw [readLogging?, record?_ofMembers (by simp) (by simp)]
    simp [optional_cons_self]
  rw [write, read?, record?_ofMembers (by simp) (by simp)]
  simp [List.lookup_cons, withDefault, hmerge, hnormalize, hstyle, hlogging]

theorem written_write (s : Settings) : Written s.write := by
  apply Written.object
  intro m hm
  simp only [List.mem_cons, List.not_mem_nil, or_false] at hm
  rcases hm with rfl | rfl | rfl | rfl
  all_goals exact .object _ (by simp)

/-- A settings file as a whole, or one of its sections. -/
inductive Extent where
  | file
  | merge
  | normalize
  | style
  | logging

namespace Extent

def sections : Extent → List (String × Shape Extent)
  | file =>
      [("merge", .record merge), ("normalize", .record normalize), ("printer", .record style),
        ("logging", .record logging)]
  | _ => []

def fields : Extent → List (String × Value)
  | merge =>
      [("left_label", .ofString "left"), ("right_label", .ofString "right"),
        ("keep", .ofString "none")]
  | normalize => [("enabled", .bool true)]
  | style => [("indent_width", .ofNat 2), ("print_locs", .bool false), ("typed_sigil", .null)]
  | logging => [("dir", .null)]
  | file => []

def defaults : Extent → List (String × Value)
  | file =>
      [("merge", .ofMembers merge.fields), ("normalize", .ofMembers normalize.fields),
        ("printer", .ofMembers style.fields), ("logging", .ofMembers logging.fields)]
  | e => e.fields

def Meaning : Extent → Type
  | file => Settings
  | merge => Merge.Options
  | normalize => Bool
  | style => Style
  | logging => Option String

def read? : (e : Extent) → Value → Option e.Meaning
  | file => Settings.read?
  | merge => readMerge?
  | normalize => readNormalize?
  | style => readStyle?
  | logging => readLogging?

end Extent

def format : Format Extent where
  member e key := e.sections.lookup key
  defaults e _ := e.defaults

attribute [local simp] format Format.Retells Extent.sections Extent.defaults Extent.fields
  List.lookup_cons

theorem read_preserves (e : Extent) {ms ns : List (Text × Value)}
    (h : Alters (format.defaults e ms) (format.Retells Extent.read? e) ms ns) :
    Preserves (e.read? (.object ms)) (e.read? (.object ns)) := by
  cases e with
  | file =>
      refine h.record fun r r' hr => ?_
      refine .bind (hr.withDefault (.ofMembers Extent.merge.fields) rfl (by simp)
        fun v w hk => hk.preserves rfl) fun merge => ?_
      refine .bind (hr.withDefault (.ofMembers Extent.normalize.fields) rfl (by simp)
        fun v w hk => hk.preserves rfl) fun normalize => ?_
      refine .bind (hr.withDefault (.ofMembers Extent.style.fields) rfl (by simp)
        fun v w hk => hk.preserves rfl) fun style => ?_
      exact .bind (hr.withDefault (.ofMembers Extent.logging.fields) rfl (by simp)
        fun v w hk => hk.preserves rfl) fun logging => .refl _
  | merge =>
      refine h.record fun r r' hr => ?_
      refine .bind (hr.withDefault (.ofString "left") rfl (by simp) (by simp)) fun left => ?_
      refine .bind (hr.withDefault (.ofString "right") rfl (by simp) (by simp)) fun right => ?_
      exact .bind (hr.withDefault (.ofString "none") rfl (by simp) (by simp)) fun keep => .refl _
  | normalize =>
      exact h.record fun r r' hr => hr.withDefault (.bool true) rfl (by simp) (by simp)
  | style =>
      refine h.record fun r r' hr => ?_
      refine .bind (hr.withDefault (.ofNat 2) rfl (by simp) (by simp)) fun indentWidth => ?_
      refine .bind (hr.withDefault (.bool false) rfl (by simp) (by simp)) fun showLocations => ?_
      exact .bind (hr.optional (by simp) (by simp)) fun sigil => .refl _
  | logging => exact h.record fun r r' hr => hr.optional (by simp) (by simp)

/-- The settings of a file are read back from its text, and from each object that differs from it by
the order of members and by members that are left out because they have their default. -/
theorem parse?_of_reworded (s : Settings) :
    parse? s.text = some s ∧
      ∀ w, format.Rewords (.record .file) s.write w →
        read? w = some s ∧ parse? w.compact = some s ∧ parse? w.pretty = some s := by
  have hall (w : Value) (h : format.Rewords (.record .file) s.write w) :
      read? w = some s ∧ parse? w.compact = some s ∧ parse? w.pretty = some s := by
    have hw := h.written s.written_write
    have hread : read? w = some s := h.preserves (fun e _ _ => read_preserves e) s s.read?_write
    refine ⟨hread, ?_, ?_⟩
    · rw [parse?, hw.parse?_compact]
      exact hread
    · rw [parse?, hw.parse?_pretty]
      exact hread
  exact ⟨(hall s.write (.refl _ _)).2.2, hall⟩

theorem parse?_of_reworded_label :
    let label := "\"é🦁\n"
    let s : Settings := { merge := { labels := ⟨"left", label⟩ } }
    let w : Value := .ofMembers
      [("logging", .ofMembers []), ("merge", .ofMembers [("right_label", .ofString label)])]
    format.Rewords (.record .file) s.write w ∧ read? w = some s ∧ parse? w.compact = some s := by
  intro label s w
  let merge : Value := .ofMembers
    [("left_label", .ofString "left"), ("right_label", .ofString label), ("keep", .ofString "none")]
  have hmerge : format.Rewords (.record .merge) merge
      (.ofMembers [("right_label", .ofString label)]) := by
    apply Format.Rewords.trans (.leave [] [(some "right_label", _), (some "keep", _)] ?_)
    · exact .leave [(some "right_label", _)] [] (by simp)
    · simp
  have hlogging : format.Rewords (.record .logging) (.ofMembers [("dir", .null)]) (.ofMembers []) :=
    .leave [] [] (by simp)
  have hs : format.Rewords (.record .file) s.write w := by
    apply Format.Rewords.trans (.leave [(some "merge", merge)] [_, _] ?_)
    · apply Format.Rewords.trans (.leave [(some "merge", merge)] [(some "logging", _)] ?_)
      · apply Format.Rewords.trans
          (.member [(some "merge", merge)] [] (s := .record .logging) rfl hlogging)
        apply Format.Rewords.trans (.member [] [_] (s := .record .merge) rfl hmerge)
        exact .permute (.swap _ _ _)
      · exact .tail _ (.tail _ (.head _))
    · exact .tail _ (.head _)
  have h := (parse?_of_reworded s).2 w hs
  exact ⟨hs, h.1, h.2.1⟩

end Settings

end Reconcile
