import Stylesheet.Proofs.Assignments
import Stylesheet.Proofs.Bump

/-!
# Versions that agree

When a command that writes both files ends well, the settings and every assignment of the source file
state the same version.
-/

namespace Stylesheet.Command

namespace Bump

open Errand Toml Release

/-! ## The source file -/

/-- The source file has assignments, all of one version. -/
def SourceStates (fs : Files) (version : Text) : Prop :=
  ∃ p t, reading fs sourcePath = .ok (some (p, t)) ∧ Assignment.occurs t ∧
    ∀ m, .assignment m ∈ Assignment.segments t → m = Assignment.template version

theorem editSource_eq {path version t : Text} (hversion : isVersion version) :
    editSource path version t =
      if Assignment.occurs t then .ok (Assignment.putAll (Assignment.template version) t)
      else .error (.assignmentMissing path) := by
  have hescape := Assignment.not_mem_template hversion (c := '\\') (by decide) (by decide) (by decide)
    (by decide) (by decide)
  have hparts := Template.parts_of_not_mem hescape
  unfold editSource
  split
  · rw [hparts]
    exact congrArg Except.ok (Assignment.replaced_eq hescape hparts t)
  · rfl

theorem exists_of_editSource {path version t new : Text} (hversion : isVersion version)
    (h : editSource path version t = .ok new) :
    Assignment.occurs t ∧ new = Assignment.putAll (Assignment.template version) t := by
  rw [editSource_eq hversion] at h
  split at h
  · cases h
    exact ⟨‹_›, rfl⟩
  · cases h

theorem not_mem_of_editSource {path version t new : Text} (hversion : isVersion version)
    (h : editSource path version t = .ok new) (ht : '\r' ∉ t) : '\r' ∉ new := by
  obtain ⟨-, rfl⟩ := exists_of_editSource hversion h
  have htemplate := Assignment.not_mem_template hversion (c := '\r') (by decide) (by decide)
    (by decide) (by decide) (by decide)
  intro hmem
  rcases Assignment.mem_joined_put hmem with hmem | hmem
  · rw [Assignment.joined_of_cuts (Assignment.cuts_segments t)] at hmem
    exact ht hmem
  · exact htemplate hmem

theorem sourceStates_of_revision {version new : Text} {fs : Files} {p : Place}
    (hversion : isVersion version) (hfeed : '\n' ∉ version)
    (h : revision sourcePath (editSource sourcePath version) fs = .ok (p, new)) :
    SourceStates (fs.write p (Utf8.encode new)) version := by
  obtain ⟨t, hread, hedit⟩ := exists_of_revision h
  have hnew := not_mem_of_editSource hversion hedit (not_mem_of_reading hread)
  obtain ⟨hoccurs, rfl⟩ := exists_of_editSource hversion hedit
  have htemplate := Assignment.isAssignment_template hversion hfeed
  refine ⟨p, _, reading_write hread hnew, ?_, fun m hm => ?_⟩
  · rwa [Assignment.occurs_putAll htemplate]
  · rw [Assignment.segments_putAll htemplate] at hm
    exact Assignment.eq_of_mem_put hm

/-! ## The settings -/

section

variable [Library]

/-- The settings state a version. -/
def SettingsState (fs : Files) (version : Text) : Prop :=
  ∃ value, ((currentVersion settingsPath).runOn fs).1 = .ok (some value) ∧
    Library.string? value = some version

theorem settingsState_iff {fs : Files} {version : Text} : SettingsState fs version ↔
    ∃ value, current settingsPath fs = .ok value ∧ value.bind Library.string? = some version := by
  simp only [SettingsState, runOn, run_currentVersion]
  constructor
  · rintro ⟨value, hcurrent, hvalue⟩
    exact ⟨some value, hcurrent, hvalue⟩
  · rintro ⟨value, hcurrent, hvalue⟩
    obtain ⟨value, rfl, hvalue⟩ := Option.bind_eq_some_iff.mp hvalue
    exact ⟨value, hcurrent, hvalue⟩

theorem SettingsState.write_source {fs : Files} {version : Text} (h : SettingsState fs version)
    (bytes : ByteArray) : SettingsState (fs.write sourcePlace bytes) version := by
  rw [settingsState_iff, current, plainPath_settingsPath, reading_write_of_ne] at *
  · exact h
  · exact fun q old htarget => place_of_find_settings htarget ▸ by decide

variable [LawfulLibrary]

theorem settingsState_of_revision {version new : Text} {fs : Files} {p : Place}
    (h : revision settingsPath (editSettings version) fs = .ok (p, new)) :
    SettingsState (fs.write p (Utf8.encode new)) version := by
  obtain ⟨t, hread, hedit⟩ := exists_of_revision h
  obtain ⟨d, hparse, hnode, hvalue, rfl⟩ := exists_of_editSettings hedit
  have hnew := LawfulLibrary.not_mem_text_set version hparse hnode hvalue (not_mem_of_reading hread)
  obtain ⟨d', hparse', hnode', hvalue'⟩ := LawfulLibrary.parse_text_set version hparse hnode hvalue
  refine settingsState_iff.mpr ⟨Library.value? d' projectKey versionKey, ?_, hvalue'⟩
  rw [current, plainPath_settingsPath, reading_write hread hnew]
  simp only [stated, Settings.version, hparse', hnode', Except.mapError, bind, Except.bind]

/-! ## Commands that end well -/

/-- A command that ends well leaves the settings with its version. If they stated it before, no file is
touched. If not, the source file states it, too. -/
theorem run_of_success (version : Text) (fs : Files) (h : ((run [version]).runOn fs).1 = .ok 0) :
    let after := ((run [version]).runOn fs).2.files
    SettingsState after version ∧ (SettingsState fs version → after = fs) ∧
      (¬SettingsState fs version → '\n' ∉ version → SourceStates after version) := by
  have hends := ends_set version ⟨fs, []⟩
  have hfiles := files_run version ⟨fs, []⟩
  have hok := (run_eq_ok_zero version ⟨fs, []⟩).mp h
  simp only [runOn]
  generalize (set version).run.run ⟨fs, []⟩ = r at hends hfiles hok
  rw [hfiles]
  cases hends with
  | badVersion | unreadable | refused | halfway => cases hok
  | alreadySet hversion hcurrent hsame =>
    -- The source file was not read, so nothing is known of it.
    have hstated := settingsState_iff.mpr ⟨_, hcurrent, hsame⟩
    exact ⟨hstated, fun _ => rfl, fun hnot => absurd hstated hnot⟩
  | @finished value p p' new new' hversion hcurrent hother hsettings hsource =>
    have hnot : ¬SettingsState fs version := fun hstated => by
      obtain ⟨value', hcurrent', hsame⟩ := settingsState_iff.mp hstated
      cases hcurrent.symm.trans hcurrent'
      exact hother hsame
    refine ⟨?_, fun hstated => absurd hstated hnot, fun _ hfeed => ?_⟩
    · rw [place_of_revision_source hsource]
      exact (settingsState_of_revision hsettings).write_source _
    · exact sourceStates_of_revision hversion hfeed hsource

end

/-! ### A project with both files -/

/-- The text of a source file with one assignment. -/
def oneAssignment (version : Text) : Text := Assignment.template version ++ ['\n']

/-- A project with a version in each of its files. -/
def project (inSettings inSource : Text) : Files :=
  ⟨[(settingsPlace, Utf8.encode (Settings.shortest inSettings)),
    (sourcePlace, Utf8.encode (oneAssignment inSource))], []⟩

theorem current_project {inSettings : Text} (h : '\r' ∉ Settings.shortest inSettings)
    (inSource : Text) :
    current settingsPath (project inSettings inSource) = .ok (some (.text inSettings)) := by
  have hread : reading (project inSettings inSource) settingsPath =
      .ok (some (settingsPlace, Settings.shortest inSettings)) :=
    reading_of_find (by rfl) h
  rw [current, plainPath_settingsPath, hread]
  exact Settings.stated_shortest _

theorem run_project_behind :
    ((run ["0.2.0".toList]).runOn (project "0.1.0".toList "0.1.0".toList)).1 = .ok 0 := by
  have hsettings : revision settingsPath (editSettings "0.2.0".toList)
      (project "0.1.0".toList "0.1.0".toList) =
        .ok (settingsPlace, Settings.shortest "0.2.0".toList) := by
    rw [revision, reading_of_find (p := settingsPlace) (t := Settings.shortest "0.1.0".toList) (by rfl)
      (by decide)]
    simp only [bind, Except.bind, Settings.editSettings_shortest]
    rfl
  have hsource : revision sourcePath (editSource sourcePath "0.2.0".toList)
      (Desk.write ⟨project "0.1.0".toList "0.1.0".toList, []⟩ settingsPlace
        (Settings.shortest "0.2.0".toList)).files =
          .ok (sourcePlace, oneAssignment "0.2.0".toList) := by
    rw [revision, reading_of_find (p := sourcePlace) (t := oneAssignment "0.1.0".toList) (by rfl)
      (by decide)]
    rfl
  have hends := Ends.finished (d := ⟨project "0.1.0".toList "0.1.0".toList, []⟩) (by decide)
    (current_project (by decide) _) (by decide) hsettings hsource
  rw [runOn, run_eq_ok_zero, run_set_of_ends hends]

theorem sourceStates_of_project_behind :
    ((run ["0.2.0".toList]).runOn (project "0.1.0".toList "0.1.0".toList)).1 = .ok 0 ∧
      SourceStates ((run ["0.2.0".toList]).runOn (project "0.1.0".toList "0.1.0".toList)).2.files
        "0.2.0".toList := by
  refine ⟨run_project_behind, (run_of_success _ _ run_project_behind).2.2 ?_ (by decide)⟩
  rw [settingsState_iff, current_project (by decide)]
  rintro ⟨value, hcurrent, hstated⟩
  cases hcurrent
  exact absurd hstated (by decide)

/-- A command that finds its version in the settings never looks at the source file. -/
theorem not_sourceStates_of_success :
    ¬∀ (version : Text) (fs : Files), ((run [version]).runOn fs).1 = .ok 0 →
      SettingsState ((run [version]).runOn fs).2.files version ∧
        SourceStates ((run [version]).runOn fs).2.files version := by
  intro h
  have hends : Ends "0.2.0".toList ⟨project "0.2.0".toList "0.1.0".toList, []⟩ _ :=
    .alreadySet (by decide) (current_project (by decide) _) (by decide)
  have hset := run_set_of_ends hends
  have hok : ((run ["0.2.0".toList]).runOn (project "0.2.0".toList "0.1.0".toList)).1 = .ok 0 := by
    rw [runOn, run_eq_ok_zero, hset]
  obtain ⟨-, p, t, hread, -, hall⟩ := h _ _ hok
  rw [runOn, files_run, hset, Desk.files_print,
    reading_of_find (p := sourcePlace) (t := oneAssignment "0.1.0".toList) (by rfl) (by decide)] at hread
  cases hread
  exact absurd (hall (Assignment.template "0.1.0".toList) (by decide)) (by decide)

end Bump

end Stylesheet.Command
