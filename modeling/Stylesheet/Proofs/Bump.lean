import Stylesheet.Proofs.Effects
import Stylesheet.Proofs.Files
import Stylesheet.Proofs.Settings

/-!
# Setting a version step by step

Every step reads one file and then either fails or writes that file. The steps follow one another without
a way back: what the first has written stays when the second fails.
-/

namespace Stylesheet.Command

/-! ## Reading, writing and printing -/

namespace Desk

def print (d : Desk) (line : Text) : Desk := { d with output := d.output ++ line ++ ['\n'] }

def write (d : Desk) (p : Place) (t : Text) : Desk :=
  { d with files := d.files.write p (Utf8.encode t) }

@[simp] theorem files_print (d : Desk) (line : Text) : (d.print line).files = d.files := rfl

@[simp] theorem files_write (d : Desk) (p : Place) (t : Text) :
    (d.write p t).files = d.files.write p (Utf8.encode t) := rfl

end Desk

namespace Errand

variable {α : Type} {fs : Files} {path t : Text} {p : Place}

theorem run_given (x : Except Fault α) (d : Desk) : (given x).run.run d = (x, d) := by
  cases x <;> rfl

theorem run_printLine (line : Text) (d : Desk) :
    (printLine line).run.run d = (.ok (), d.print line) := rfl

theorem run_readFile? (path : Text) (d : Desk) :
    (readFile? path).run.run d = (reading d.files path, d) := by
  rw [readFile?, run_bind_of_ok (a := d) (by rfl), run_given]

theorem exists_of_reading (h : reading fs path = .ok (some (p, t))) :
    ∃ bytes, fs.find path = .file p bytes ∧ Files.textOf bytes = .ok t := by
  unfold reading at h
  split at h
  · rename_i q bytes htarget
    split at h
    · rename_i t' htext
      cases h
      exact ⟨bytes, htarget, htext⟩
    · cases h
  · cases h
  · cases h
  · cases h

theorem reading_of_decode {bytes : ByteArray} (h : fs.find path = .file p bytes)
    (ht : Utf8.decode bytes = .ok t) : reading fs path = .ok (some (p, Text.withLineFeeds t)) := by
  have htext : Files.textOf bytes = .ok (Text.withLineFeeds t) := by
    rw [Files.textOf, ht]
    rfl
  simp only [reading, h, htext]

/-- What a text of a file is read as after it was written. -/
theorem reading_of_find (h : fs.find path = .file p (Utf8.encode t)) (ht : '\r' ∉ t) :
    reading fs path = .ok (some (p, t)) := by
  rw [reading_of_decode h (Utf8.decode_encode t), Text.withLineFeeds_of_not_mem ht]

theorem reading_write {new : Text} (h : reading fs path = .ok (some (p, t))) (hnew : '\r' ∉ new) :
    reading (fs.write p (Utf8.encode new)) path = .ok (some (p, new)) := by
  obtain ⟨bytes, htarget, -⟩ := exists_of_reading h
  refine reading_of_find ?_ hnew
  rw [Files.find_write, htarget, Files.Target.rewrite, if_pos rfl]

theorem not_mem_of_reading (h : reading fs path = .ok (some (p, t))) : '\r' ∉ t := by
  obtain ⟨bytes, -, htext⟩ := exists_of_reading h
  unfold Files.textOf at htext
  rcases hdecode : Utf8.decode bytes with fault | t' <;> rw [hdecode] at htext <;> cases htext
  exact Text.not_mem_withLineFeeds t'

theorem reading_write_of_ne {bytes : ByteArray} (h : ∀ q old, fs.find path = .file q old → q ≠ p) :
    reading (fs.write p bytes) path = reading fs path := by
  rw [reading, reading, Files.find_write_of_ne h]

end Errand

namespace Bump

open Errand Release Toml

/-! ## One file -/

/-- Where a path leads and what the file there becomes by an edit of its text. -/
def revision (path : Text) (edit : Text → Except Fault Text) (fs : Files) :
    Except Fault (Place × Text) := do
  match ← reading fs path with
  | some (p, t) => return (p, ← edit t)
  | none => .error (.fileMissing path)

theorem exists_of_revision {path : Text} {edit : Text → Except Fault Text} {fs : Files} {p : Place}
    {new : Text} (h : revision path edit fs = .ok (p, new)) :
    ∃ t, reading fs path = .ok (some (p, t)) ∧ edit t = .ok new := by
  unfold revision at h
  rcases hread : reading fs path with fault | _ | ⟨q, t⟩ <;> rw [hread] at h
  · cases h
  · cases h
  · rcases hedit : edit t with fault | new'
    · simp [bind, Except.bind, hedit] at h
    · simp only [bind, Except.bind, hedit, pure, Except.pure, Except.ok.injEq, Prod.mk.injEq] at h
      obtain ⟨rfl, rfl⟩ := h
      exact ⟨t, rfl, hedit⟩

/-- A file is revised as a whole or left as it is. -/
theorem run_revise (path version : Text) (edit : Text → Except Fault Text) (d : Desk) :
    (revise path version edit).run.run d =
      match revision path edit d.files with
      | .ok (p, new) => (.ok (), (d.write p new).print (updated path version))
      | .error fault => (.error fault, d) := by
  unfold revise revision readFile
  rw [run_bind, run_bind, run_readFile?]
  rcases reading d.files path with fault | _ | ⟨p, t⟩
  · rfl
  · rfl
  · change (given (edit t) >>= fun new => do writeFile p new; printLine _).run.run d = _
    rw [run_bind, run_given]
    rcases hedit : edit t with fault | new
    · simp [bind, Except.bind, hedit]
    · simp only [bind, Except.bind, hedit]
      rfl

/-- Where the settings and the source file are. -/
def settingsPlace : Place := Text.pieces '/' settingsPath

def sourcePlace : Place := Text.pieces '/' sourcePath

theorem place_of_find_settings {fs : Files} {q : Place} {old : ByteArray}
    (h : fs.find settingsPath = .file q old) : q = settingsPlace :=
  Files.place_of_find (by decide) (by decide) h

theorem place_of_find_source {fs : Files} {q : Place} {old : ByteArray}
    (h : fs.find sourcePath = .file q old) : q = sourcePlace :=
  Files.place_of_find (by decide) (by decide) h

theorem plainPath_settingsPath : Files.plainPath settingsPath = settingsPath := by decide

theorem plainPath_sourcePath : Files.plainPath sourcePath = sourcePath := by decide

theorem run_setInSource (version : Text) (d : Desk) :
    (setInSource sourcePath version).run.run d =
      match revision sourcePath (editSource sourcePath version) d.files with
      | .ok (p, new) => (.ok (), (d.write p new).print (updated sourcePath version))
      | .error fault => (.error fault, d) := by
  rw [setInSource, run_revise, plainPath_sourcePath]

theorem place_of_revision_settings {edit : Text → Except Fault Text} {fs : Files} {p : Place}
    {new : Text} (h : revision settingsPath edit fs = .ok (p, new)) : p = settingsPlace := by
  obtain ⟨t, hread, -⟩ := exists_of_revision h
  obtain ⟨bytes, htarget, -⟩ := exists_of_reading hread
  exact place_of_find_settings htarget

theorem place_of_revision_source {edit : Text → Except Fault Text} {fs : Files} {p : Place}
    {new : Text} (h : revision sourcePath edit fs = .ok (p, new)) : p = sourcePlace := by
  obtain ⟨t, hread, -⟩ := exists_of_revision h
  obtain ⟨bytes, htarget, -⟩ := exists_of_reading hread
  exact place_of_find_source htarget

theorem find_source_write (fs : Files) (bytes : ByteArray) :
    (fs.write settingsPlace bytes).find sourcePath = fs.find sourcePath :=
  Files.find_write_of_ne fun _ _ htarget => place_of_find_source htarget ▸ (by decide)

section

variable [Library]

/-- What the settings at a path state. -/
def current (path : Text) (fs : Files) : Except Fault (Option Library.Value) := do
  match ← reading fs (Files.plainPath path) with
  | some (_, t) => stated t
  | none => return none

theorem run_currentVersion (path : Text) (d : Desk) :
    (currentVersion path).run.run d = (current path d.files, d) := by
  unfold currentVersion current
  rw [run_bind, run_readFile?]
  rcases reading d.files (Files.plainPath path) with fault | _ | ⟨p, t⟩
  · rfl
  · rfl
  · exact run_given _ d

/-! ## Both files -/

/-- What setting a version on a desk comes to. -/
inductive Ends (version : Text) (d : Desk) : Except Fault Unit × Desk → Prop
  | badVersion (hversion : ¬Release.isVersion version) : Ends version d (.error .badVersion, d)
  | unreadable {fault : Fault} (hversion : Release.isVersion version)
      (hcurrent : current settingsPath d.files = .error fault) : Ends version d (.error fault, d)
  | alreadySet {value : Option Library.Value} (hversion : Release.isVersion version)
      (hcurrent : current settingsPath d.files = .ok value)
      (hsame : value.bind Library.string? = some version) :
      Ends version d (.ok (), d.print (alreadySet version))
  | refused {value : Option Library.Value} {fault : Fault} (hversion : Release.isVersion version)
      (hcurrent : current settingsPath d.files = .ok value)
      (hother : value.bind Library.string? ≠ some version)
      (hsettings : revision settingsPath (editSettings version) d.files = .error fault) :
      Ends version d (.error fault, d)
  | halfway {value : Option Library.Value} {p : Place} {new : Text} {fault : Fault}
      (hversion : Release.isVersion version)
      (hcurrent : current settingsPath d.files = .ok value)
      (hother : value.bind Library.string? ≠ some version)
      (hsettings : revision settingsPath (editSettings version) d.files = .ok (p, new))
      (hsource : revision sourcePath (editSource sourcePath version) (d.write p new).files =
        .error fault) :
      Ends version d (.error fault, (d.write p new).print (updated settingsPath version))
  | finished {value : Option Library.Value} {p p' : Place} {new new' : Text}
      (hversion : Release.isVersion version)
      (hcurrent : current settingsPath d.files = .ok value)
      (hother : value.bind Library.string? ≠ some version)
      (hsettings : revision settingsPath (editSettings version) d.files = .ok (p, new))
      (hsource : revision sourcePath (editSource sourcePath version) (d.write p new).files =
        .ok (p', new')) :
      Ends version d (.ok (), ((((d.write p new).print (updated settingsPath version)).write
        p' new').print (updated sourcePath version)))

theorem run_setInSettings (version : Text) (d : Desk) :
    (setInSettings settingsPath version).run.run d =
      match revision settingsPath (editSettings version) d.files with
      | .ok (p, new) => (.ok (), (d.write p new).print (updated settingsPath version))
      | .error fault => (.error fault, d) := by
  rw [setInSettings, run_revise, plainPath_settingsPath]

variable {version : Text} {d : Desk} {r : Except Fault Unit × Desk}

theorem run_set_of_version (hversion : Release.isVersion version) :
    (set version).run.run d =
      match current settingsPath d.files with
      | .error fault => (.error fault, d)
      | .ok value =>
        if value.bind Library.string? = some version then (.ok (), d.print (alreadySet version))
        else
          (do setInSettings settingsPath version; setInSource sourcePath version).run.run d := by
  unfold set checkVersion
  rw [if_pos hversion, run_bind_of_ok (a := ()) (by rfl), run_bind, run_currentVersion]
  rcases current settingsPath d.files with fault | value
  · rfl
  · by_cases hsame : value.bind Library.string? = some version
    · simp only [if_pos hsame, run_printLine]
    · simp only [if_neg hsame]

theorem run_set_of_ends (h : Ends version d r) : (set version).run.run d = r := by
  cases h with
  | badVersion hversion =>
    unfold set checkVersion
    rw [if_neg hversion]
    rfl
  | unreadable hversion hcurrent => rw [run_set_of_version hversion, hcurrent]
  | alreadySet hversion hcurrent hsame =>
    rw [run_set_of_version hversion, hcurrent]
    simp only [if_pos hsame]
  | refused hversion hcurrent hother hsettings =>
    rw [run_set_of_version hversion, hcurrent]
    simp only [if_neg hother, run_bind, run_setInSettings, hsettings]
  | halfway hversion hcurrent hother hsettings hsource
  | finished hversion hcurrent hother hsettings hsource =>
    rw [run_set_of_version hversion, hcurrent]
    simp only [if_neg hother, run_bind, run_setInSettings, hsettings, run_setInSource,
      Desk.files_print, hsource]

theorem ends_set (version : Text) (d : Desk) : Ends version d ((set version).run.run d) := by
  -- Each ending fixes the result, so it is enough that one of them is open.
  suffices ∃ r, Ends version d r by
    obtain ⟨r, h⟩ := this
    exact run_set_of_ends h ▸ h
  by_cases hversion : Release.isVersion version
  case neg => exact ⟨_, .badVersion hversion⟩
  rcases hcurrent : current settingsPath d.files with fault | value
  · exact ⟨_, .unreadable hversion hcurrent⟩
  by_cases hsame : value.bind Library.string? = some version
  · exact ⟨_, .alreadySet hversion hcurrent hsame⟩
  rcases hsettings : revision settingsPath (editSettings version) d.files with fault | ⟨p, new⟩
  · exact ⟨_, .refused hversion hcurrent hsame hsettings⟩
  rcases hsource : revision sourcePath (editSource sourcePath version) (d.write p new).files with
    fault | ⟨p', new'⟩
  · exact ⟨_, .halfway hversion hcurrent hsame hsettings hsource⟩
  · exact ⟨_, .finished hversion hcurrent hsame hsettings hsource⟩

theorem run_run (version : Text) (d : Desk) :
    (run [version]).run.run d =
      match (set version).run.run d with
      | (.ok (), d') => (.ok 0, d')
      | (.error fault, d') =>
        if fault.isReported then (.ok 1, d'.print ("Error: ".toList ++ fault.message))
        else (.error fault, d') := by
  unfold run
  rw [run_tryCatch, run_bind]
  rcases (set version).run.run d with ⟨fault | _, d'⟩
  · simp only
    split <;> rfl
  · rfl

theorem files_run (version : Text) (d : Desk) :
    ((run [version]).run.run d).2.files = ((set version).run.run d).2.files := by
  rw [run_run]
  rcases (set version).run.run d with ⟨fault | _, d'⟩
  · simp only
    split <;> rfl
  · rfl

theorem run_eq_ok_zero (version : Text) (d : Desk) :
    ((run [version]).run.run d).1 = .ok 0 ↔ ((set version).run.run d).1 = .ok () := by
  rw [run_run]
  rcases (set version).run.run d with ⟨fault | _, d'⟩
  · simp only
    split <;> simp
  · simp

/-! ## Commands that fail -/

/-- A command that fails leaves all files as they are, unless the settings were set before the source
file failed. Then the settings stay set, and all else is as it was. -/
theorem run_of_failure (args : List Text) (fs : Files)
    (h : ((run args).runOn fs).1 = .ok 1 ∨ ∃ fault, ((run args).runOn fs).1 = .error fault) :
    ((run args).runOn fs).2.files = fs ∨
      ∃ version d fault, args = [version] ∧
        (setInSettings settingsPath version).runOn fs = (.ok (), d) ∧
        ((setInSource sourcePath version).runOn d.files).1 = .error fault ∧
        ((run args).runOn fs).2.files = d.files ∧
        d.files.find sourcePath = fs.find sourcePath ∧
        ∀ q ≠ settingsPlace, d.files.node? q = fs.node? q := by
  rcases args with _ | ⟨version, _ | ⟨_, _⟩⟩
  · exact .inl rfl
  case cons.cons => exact .inl rfl
  have hends := ends_set version ⟨fs, []⟩
  have hfiles := files_run version ⟨fs, []⟩
  have hfailed : ((set version).run.run ⟨fs, []⟩).1 ≠ .ok () := by
    rw [ne_eq, ← run_eq_ok_zero]
    rcases h with h | ⟨fault, h⟩ <;>
      exact fun hzero => by cases h.symm.trans hzero
  unfold runOn
  generalize (set version).run.run ⟨fs, []⟩ = r at hends hfiles hfailed
  rw [hfiles]
  cases hends with
  | badVersion | unreadable | refused => exact .inl rfl
  | alreadySet | finished => exact absurd rfl hfailed
  | @halfway value p new fault hversion hcurrent hother hsettings hsource =>
    -- The settings are written by now, and nothing behind takes that back.
    refine .inr ⟨version, _, fault, rfl, ?_, ?_, rfl, ?_, ?_⟩
    · rw [run_setInSettings]
      simp only [hsettings]
    · simp only [run_setInSource, Desk.files_print, hsource]
    · simp only [Desk.files_print, Desk.files_write, place_of_revision_settings hsettings, find_source_write]
    · intro q hq
      rw [Desk.files_print, Desk.files_write, place_of_revision_settings hsettings, Files.node?_write,
        if_neg hq]

end

/-- Settings that state a version, with no source file. -/
def onlySettings : Files :=
  ⟨[(settingsPlace, Utf8.encode (Settings.shortest "0.1.0".toList))], []⟩

theorem reading_onlySettings : reading onlySettings settingsPath =
    .ok (some (settingsPlace, Settings.shortest "0.1.0".toList)) :=
  reading_of_find (by rfl) (by decide)

theorem ends_onlySettings :
    Ends "0.2.0".toList ⟨onlySettings, []⟩ (.error (.fileMissing sourcePath),
      (Desk.write ⟨onlySettings, []⟩ settingsPlace (Settings.shortest "0.2.0".toList)).print
        (updated settingsPath "0.2.0".toList)) := by
  have hcurrent : current settingsPath onlySettings = .ok (some (.text "0.1.0".toList)) := by
    rw [current, plainPath_settingsPath, reading_onlySettings]
    exact Settings.stated_shortest _
  have hsettings : revision settingsPath (editSettings "0.2.0".toList) onlySettings =
      .ok (settingsPlace, Settings.shortest "0.2.0".toList) := by
    rw [revision, reading_onlySettings]
    simp only [bind, Except.bind, Settings.editSettings_shortest]
    rfl
  exact .halfway (by decide) hcurrent (by decide) hsettings (by rfl)

theorem run_onlySettings : ((run ["0.2.0".toList]).runOn onlySettings).1 = .ok 1 := by
  rw [runOn, run_run, run_set_of_ends ends_onlySettings]
  rfl

theorem find_source_of_onlySettings :
    ((run ["0.2.0".toList]).runOn onlySettings).1 = .ok 1 ∧
      ((run ["0.2.0".toList]).runOn onlySettings).2.files.find sourcePath =
        onlySettings.find sourcePath := by
  refine ⟨run_onlySettings, ?_⟩
  rcases run_of_failure _ _ (.inl run_onlySettings) with h | ⟨_, _, _, -, -, -, h, hsource, -⟩
  · rw [h]
  · rw [h, hsource]

/-- There is no way back from the settings. -/
theorem not_unchanged_of_failure :
    ¬∀ (args : List Text) (fs : Files),
      ((run args).runOn fs).1 = .ok 1 ∨ (∃ fault, ((run args).runOn fs).1 = .error fault) →
        ((run args).runOn fs).2.files = fs := by
  intro h
  have hsame := h _ _ (.inl run_onlySettings)
  rw [runOn, files_run, run_set_of_ends ends_onlySettings] at hsame
  have hread : reading (onlySettings.write settingsPlace
      (Utf8.encode (Settings.shortest "0.2.0".toList))) settingsPath = _ :=
    reading_write reading_onlySettings (by decide)
  rw [← Desk.files_write ⟨onlySettings, []⟩, ← Desk.files_print, hsame, reading_onlySettings] at hread
  have htext : Settings.shortest "0.1.0".toList = Settings.shortest "0.2.0".toList := by
    simpa using hread
  exact absurd htext (by decide)

end Bump

end Stylesheet.Command
