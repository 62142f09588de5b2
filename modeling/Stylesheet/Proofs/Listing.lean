import Mathlib.Data.List.Basic
import Stylesheet.Command.Listing
import Stylesheet.Proofs.Recorders
import Stylesheet.Proofs.SameLines

/-!
# What the listing command prints

The command tells of every rule of an accepted text and then lists them, and of a rejected text it tells the
error twice: as a warning of the journal and by its listener. Files with the same lines print the same. What
the command does not answer are names that no file can have, and bytes that encode no text.
-/

namespace Stylesheet.Command.Listing

/-! ## One text -/

theorem onlyRecords_watched : watched.roster.OnlyRecords := by
  rintro (_ | _ | _) <;> simp [watched, Roster.of]

/-- The line that tells of a rule. -/
def ruleLine (r : Rule) : Text := line ("New rule parsed: ".toList ++ r.selector.text)

theorem parse_watched (t : Text) :
    watched.parse t = (Sheet.ending t, (((World.opened t ⟨watched, []⟩).noteAll
      ((Sheet.notices t).flatMap fun n => (World.opened t ⟨watched, []⟩).calls 0 n.1 n.2)).closed t)) :=
  Work.parse_of_onlyRecords (w := ⟨watched, []⟩) onlyRecords_watched t

theorem moments_watched (t : Text) :
    (watched.parse t).2.moments = .began t :: (Sheet.opening t).map .logged ++
      ((Sheet.notices t).flatMap fun n => (World.opened t ⟨watched, []⟩).calls 0 n.1 n.2) ++
      (Sheet.closing t).map .logged := by
  rw [parse_watched]
  simp [World.closed, World.noteAll, World.opened, World.moments]

theorem told_rulesParsed (rs : List Rule) :
    ((rs.map Entry.ofRule).map Moment.logged).flatMap told = [] := by
  simp [told, Entry.ofRule, Entry.level]

theorem told_ruleNotices (s : Sheet) {w : World} (hw : w.parser.roster = watched.roster) :
    (s.ruleNotices.flatMap fun n => w.calls 0 n.1 n.2).flatMap told = s.rules.flatMap ruleLine := by
  unfold Sheet.ruleNotices
  induction s.rules with
  | nil => rfl
  | cons r rs ih =>
    rw [List.map_cons, List.flatMap_cons, List.flatMap_append, ih, List.flatMap_cons]
    simp [World.calls, hw, watched, Roster.of, told, ruleLine]

theorem told_of_accepted {t : Text} {s : Sheet} (h : Sheet.parse? t = .ok s) :
    (watched.parse t).2.moments.flatMap told = s.rules.flatMap ruleLine := by
  have hns : Sheet.notices t = s.ruleNotices ++ [(.parseCompleted, .completed)] := by
    rw [Sheet.notices, h]
  have hopening : Sheet.opening t = (Sheet.read t).1.map Entry.ofRule := by
    rw [Sheet.opening, h, List.append_nil]
  have hclosing : Sheet.closing t = [.parsingCompleted s.size] := by rw [Sheet.closing, h]
  rw [moments_watched, hns, hopening, hclosing]
  simp only [List.flatMap_append, List.flatMap_cons, told_rulesParsed, List.flatMap_nil]
  rw [told_ruleNotices s rfl]
  simp [World.calls, World.opened, watched, Roster.of, told, Entry.level]

theorem told_of_rejected {t : Text} {e : ParseError} (h : Sheet.parse? t = .error e) :
    (watched.parse t).2.moments.flatMap told =
      line ("Error: ".toList ++ e.diagnostic.render) ++ line e.diagnostic.render := by
  have hns : Sheet.notices t = [(.errorFound, .error e.diagnostic.render)] := by rw [Sheet.notices, h]
  have hopening : Sheet.opening t =
      (Sheet.read t).1.map Entry.ofRule ++ [.ofError e, .errorReported e.diagnostic.render] := by
    rw [Sheet.opening, h]
  have hclosing : Sheet.closing t = [] := by rw [Sheet.closing, h]
  -- The warning stands in the journal before the listener is called.
  have hwarning : told (.logged (.errorReported e.diagnostic.render)) =
    line ("Error: ".toList ++ e.diagnostic.render) := rfl
  have hdebug : told (.logged (.ofError e)) = [] := rfl
  rw [moments_watched, hns, hopening, hclosing]
  simp only [List.map_append, List.flatMap_append, List.flatMap_cons, told_rulesParsed, List.flatMap_nil,
    List.map_cons, List.map_nil, hwarning, hdebug]
  simp [World.calls, World.opened, watched, Roster.of, told]

/-- The listing of an accepted text, or the error of a rejected one. -/
theorem ofText_eq (t : Text) :
    ofText t =
      match Sheet.parse? t with
      | .ok s => ⟨0, s.listing, s.rules.flatMap ruleLine⟩
      | .error e => ⟨1, [], line ("Error: ".toList ++ e.diagnostic.render) ++ line e.diagnostic.render⟩ := by
  have hended : (watched.parse t).1 = Sheet.ending t := congrArg Prod.fst (parse_watched t)
  unfold ofText
  cases hparse : Sheet.parse? t with
  | ok s =>
    rw [Sheet.ending_eq_ok.mpr hparse] at hended
    simp only [hended, told_of_accepted hparse]
  | error e =>
    rw [Sheet.ending_eq_error.mpr ⟨e, hparse, rfl⟩] at hended
    simp only [hended, told_of_rejected hparse]

/-! ## All files -/

variable {fs : Files} {name : Text} {p : Place} {bytes : ByteArray} {old : Text}

/-- What the command comes to. -/
inductive Ends (fs : Files) : List Text → Except Fault Printed → Prop
  | usage {args : List Text} (hargs : args.length ≠ 1) : Ends fs args (.ok usage)
  | badName {name : Text} (hname : '\x00' ∈ name) : Ends fs [name] (.error .badName)
  | unreadable {name : Text} {f : Files.OpenFault} (hname : '\x00' ∉ name)
      (hopen : fs.openFile name = .error f) : Ends fs [name] (.ok (unreadable name f))
  | undecodable {name : Text} {p : Place} {bytes : ByteArray} {f : Utf8.Fault}
      (hopen : fs.openFile name = .ok (p, bytes)) (hbytes : Utf8.decode bytes = .error f) :
      Ends fs [name] (.error (.undecodable f))
  | listed {name : Text} {p : Place} {bytes : ByteArray} {old : Text}
      (hopen : fs.openFile name = .ok (p, bytes)) (hbytes : Utf8.decode bytes = .ok old) :
      Ends fs [name] (.ok (ofText (Text.withLineFeeds old)))

theorem openFile_of_mem (h : '\x00' ∈ name) : fs.openFile name = .error .badName := by
  rw [Files.openFile, if_pos h]

theorem mem_of_openFile (h : fs.openFile name = .error .badName) : '\x00' ∈ name := by
  by_cases hname : '\x00' ∈ name
  · exact hname
  · rw [Files.openFile, if_neg hname] at h
    rcases htarget : fs.find name with ⟨q, b⟩ | _ | _ | _ <;> rw [htarget] at h <;> cases h

theorem run_of_mem (h : '\x00' ∈ name) : run [name] fs = .error .badName := by
  simp only [run, openFile_of_mem h, Except.map, ofOpened]

theorem run_of_fault {f : Utf8.Fault} (hopen : fs.openFile name = .ok (p, bytes))
    (hbytes : Utf8.decode bytes = .error f) : run [name] fs = .error (.undecodable f) := by
  simp only [run, hopen, Except.map, ofOpened, Files.textOf, hbytes]

theorem run_of_decode (hopen : fs.openFile name = .ok (p, bytes)) (hbytes : Utf8.decode bytes = .ok old) :
    run [name] fs = .ok (ofText (Text.withLineFeeds old)) := by
  simp only [run, hopen, Except.map, ofOpened, Files.textOf, hbytes]

theorem ends_run (args : List Text) (fs : Files) : Ends fs args (run args fs) := by
  rcases args with _ | ⟨name, _ | ⟨_, _⟩⟩
  · exact .usage (by simp)
  case cons.cons => exact .usage (by simp)
  rcases hopen : fs.openFile name with f | ⟨p, bytes⟩
  · by_cases hname : '\x00' ∈ name
    · rw [run_of_mem hname]
      exact .badName hname
    · have hf : run [name] fs = .ok (unreadable name f) := by
        cases f with
        | badName => exact absurd (mem_of_openFile hopen) hname
        | missing | throughFile | folder => simp only [run, hopen, Except.map, ofOpened]
      rw [hf]
      exact .unreadable hname hopen
  · rcases hbytes : Utf8.decode bytes with f | old
    · rw [run_of_fault hopen hbytes]
      exact .undecodable hopen hbytes
    · rw [run_of_decode hopen hbytes]
      exact .listed hopen hbytes

theorem status_ofText (t : Text) : (ofText t).status = 0 ↔ ∃ s, Sheet.parse? t = .ok s := by
  rw [ofText_eq]
  cases Sheet.parse? t <;> simp

theorem status_ofText_le (t : Text) : (ofText t).status ≤ 2 := by
  rw [ofText_eq]
  cases Sheet.parse? t <;> simp

/-! ## What is not answered -/

theorem exists_run_eq_ok (args : List Text) (fs : Files) :
    (∃ printed, run args fs = .ok printed ∧ printed.status ≤ 2) ↔
      ∀ name, args = [name] → '\x00' ∉ name ∧
        ∀ p bytes, fs.openFile name = .ok (p, bytes) → ∃ t, Utf8.encode t = bytes := by
  have hends := ends_run args fs
  generalize run args fs = r at hends
  cases hends with
  | usage hargs =>
    refine ⟨fun _ name hname => ?_, fun _ => ⟨usage, rfl, by simp [usage]⟩⟩
    simp [hname] at hargs
  | badName hname => simp [hname]
  | @unreadable name f hname hopen =>
    refine ⟨fun _ name' h => ?_, fun _ => ⟨_, rfl, by simp [unreadable]⟩⟩
    obtain rfl : name = name' := by simpa using h
    refine ⟨hname, fun p bytes h => ?_⟩
    cases hopen.symm.trans h
  | @undecodable name p bytes f hopen hbytes =>
    have hnone := Utf8.exists_fault_iff.mp ⟨f, hbytes⟩
    simp only [reduceCtorEq, false_and, exists_false, false_iff]
    intro h
    obtain ⟨t, ht⟩ := (h name rfl).2 p bytes hopen
    exact hnone t ht
  | @listed name p bytes old hopen hbytes =>
    refine ⟨fun _ name' h => ?_, fun _ => ⟨_, rfl, status_ofText_le _⟩⟩
    obtain rfl : name = name' := by simpa using h
    refine ⟨fun hname => ?_, fun p' bytes' h => ?_⟩
    · rw [openFile_of_mem hname] at hopen
      cases hopen
    · cases hopen.symm.trans h
      exact ⟨old, Utf8.encode_of_decode hbytes⟩

theorem run_eq_error (args : List Text) (fs : Files) (fault : Fault) :
    run args fs = .error fault ↔ ∃ name, args = [name] ∧
      (fault = .badName ∧ '\x00' ∈ name ∨
        ∃ p bytes f, fs.openFile name = .ok (p, bytes) ∧ Utf8.decode bytes = .error f ∧
          fault = .undecodable f) := by
  constructor
  · intro h
    have hends := ends_run args fs
    rw [h] at hends
    cases hends with
    | badName hname => exact ⟨_, rfl, .inl ⟨rfl, hname⟩⟩
    | undecodable hopen hbytes => exact ⟨_, rfl, .inr ⟨_, _, _, hopen, hbytes, rfl⟩⟩
  · rintro ⟨name, rfl, ⟨rfl, hname⟩ | ⟨p, bytes, f, hopen, hbytes, rfl⟩⟩
    · exact run_of_mem hname
    · exact run_of_fault hopen hbytes

/-- The command answers with a status unless the name of the file has a character that no name can have, or
the bytes of the file encode no text. Nothing else comes out of it, and out of a parse only rejections. -/
theorem run_answers_iff (args : List Text) (fs : Files) :
    ((∃ printed, run args fs = .ok printed ∧ printed.status ≤ 2) ↔
      ∀ name, args = [name] → '\x00' ∉ name ∧
        ∀ p bytes, fs.openFile name = .ok (p, bytes) → ∃ t, Utf8.encode t = bytes) ∧
    (∀ fault, run args fs = .error fault ↔ ∃ name, args = [name] ∧
      (fault = .badName ∧ '\x00' ∈ name ∨
        ∃ p bytes f, fs.openFile name = .ok (p, bytes) ∧ Utf8.decode bytes = .error f ∧
          fault = .undecodable f)) ∧
    ∀ t error, (watched.parse t).1 = .error error → ∃ e, error = .rejected e := by
  refine ⟨exists_run_eq_ok args fs, run_eq_error args fs, fun t error h => ?_⟩
  rw [parse_watched] at h
  obtain ⟨e, -, he⟩ := Sheet.ending_eq_error.mp h
  exact ⟨e, he⟩

/-- A byte that begins no character is not answered. -/
theorem not_forall_run_answers :
    ¬∀ (args : List Text) (fs : Files), ∃ printed, run args fs = .ok printed ∧ printed.status ≤ 2 := by
  intro h
  obtain ⟨printed, hrun, -⟩ := h ["s.css".toList] ⟨[(["s.css".toList], ⟨#[0xff]⟩)], []⟩
  have hfault : run ["s.css".toList] ⟨[(["s.css".toList], ⟨#[0xff]⟩)], []⟩ =
    .error (.undecodable ⟨0, 0xff, 1, .invalidStart⟩) := by rfl
  cases hrun.symm.trans hfault

/-! ## What is listed -/

/-- A file that holds a text is listed if the text is accepted: the rules one after another, and before that
a line for each of them in the same order. Otherwise its error is told twice and nothing is listed. Files
with the same lines print the same. -/
theorem run_prints (hopen : fs.openFile name = .ok (p, bytes)) (hbytes : Utf8.decode bytes = .ok old) :
    let t := Text.withLineFeeds old
    (∃ printed, run [name] fs = .ok printed ∧ (printed.status = 0 ↔ ∃ s, Sheet.parse? t = .ok s)) ∧
    (∀ s, Sheet.parse? t = .ok s →
      run [name] fs = .ok ⟨0, s.listing, s.rules.flatMap fun r =>
        "New rule parsed: ".toList ++ r.selector.text ++ ['\n']⟩) ∧
    (∀ e, Sheet.parse? t = .error e →
      run [name] fs = .ok ⟨1, [], "Error: ".toList ++ e.diagnostic.render ++ ['\n'] ++
        e.diagnostic.render ++ ['\n']⟩) ∧
    ∀ (fs' : Files) (name' : Text) (p' : Place) (bytes' : ByteArray) (old' : Text),
      fs'.openFile name' = .ok (p', bytes') → Utf8.decode bytes' = .ok old' →
      Text.SameLines old old' → run [name'] fs' = run [name] fs := by
  intro t
  have hrun : run [name] fs = .ok (ofText t) := run_of_decode hopen hbytes
  rw [hrun]
  refine ⟨⟨_, rfl, status_ofText t⟩, fun s hs => ?_, fun e he => ?_, ?_⟩
  · rw [ofText_eq, hs]
    rfl
  · rw [ofText_eq, he]
    simp [line]
  · intro fs' name' p' bytes' old' hopen' hbytes' hlines
    rw [run_of_decode hopen' hbytes', ← hlines.withLineFeeds_eq]

/-- Two rules in two files, one with carriage returns before its line feeds and one with carriage returns
in their place. -/
theorem run_prints_two_rules :
    let t := "a { color: red; }\n\nb { }\n".toList
    let path := "a.css".toList
    let fs : Files := ⟨[([path], Utf8.encode (Text.spelled .both t))], []⟩
    let fs' : Files := ⟨[([path], Utf8.encode (Text.spelled .carriage t))], []⟩
    let printed : Printed := ⟨0, "selector: a\n color: red\n\nselector: b\n\n".toList,
      "New rule parsed: a\nNew rule parsed: b\n".toList⟩
    fs.openFile path = .ok ([path], Utf8.encode (Text.spelled .both t)) ∧
      Utf8.decode (Utf8.encode (Text.spelled .both t)) = .ok (Text.spelled .both t) ∧
      run [path] fs = .ok printed ∧ run [path] fs' = .ok printed := by
  intro t path fs fs' printed
  have hreturn : '\r' ∉ t := by decide
  have hopen : fs.openFile path = .ok ([path], Utf8.encode (Text.spelled .both t)) := by rfl
  have hopen' : fs'.openFile path = .ok ([path], Utf8.encode (Text.spelled .carriage t)) := by rfl
  have hparse : Sheet.parse? t =
      .ok ⟨[⟨⟨t, 0, 1⟩, [⟨.color, ⟨t, 11, 14⟩⟩]⟩, ⟨⟨t, 19, 20⟩, []⟩]⟩ := by decide +kernel
  obtain ⟨-, hlisted, -, hlines⟩ := run_prints hopen (Utf8.decode_encode _)
  rw [Text.withLineFeeds_spelled .both hreturn] at hlisted
  have hboth := hlisted _ hparse
  have hsame := hlines fs' path _ _ _ hopen' (Utf8.decode_encode _)
    (Text.sameLines_spelled .both .carriage hreturn)
  have hprinted : run [path] fs = .ok printed := hboth.trans (congrArg Except.ok (by decide))
  exact ⟨hopen, Utf8.decode_encode _, hprinted, hsame.trans hprinted⟩

end Stylesheet.Command.Listing
