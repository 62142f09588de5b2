import Stylesheet.Proofs.Bump
import Stylesheet.Proofs.Keys

/-!
# Settings that keep all else

A library for settings documents writes a document as it read it, and sets a value in its place. With such
a library, setting a version in the settings changes the characters of the version they state and no
others. Another version set before makes no difference.
-/

namespace Stylesheet

namespace Toml

/-! ## Libraries that keep what they read -/

/-- A text of settings whose document has a string as the value of a key in a table. -/
structure HasString [Library] (t : Text) (d : Library.Document) (table key s : Text) : Prop where
  parse : Library.parse t = .ok d
  node : Library.node d table = .table
  value : (Library.value? d table key).bind Library.string? = some s

/-- What else can be said of the documents of a library and of the texts of its strings. -/
class KeyedLibrary [Library] where
  /-- What a path leads to. -/
  nodeAt : Library.Document → Path → Node Library.Value
  /-- Whether the first text, with its quotes, is a string that means the second. -/
  Writes : Text → Text → Prop
  /-- How a string is written when it is set. -/
  quote : Text → Text

open KeyedLibrary

/-- A document is written as it was read, and a string that is set takes the place of the one that was
there. -/
class PreservingLibrary [Library] [KeyedLibrary] : Prop where
  text_of_parse {t : Text} {d : Library.Document} (h : Library.parse t = .ok d) : Library.text d = t
  text_set {t table key s : Text} {d : Library.Document} (h : HasString t d table key s) :
    ∃ a x b, Library.text d = a ++ x ++ b ∧ Writes x s ∧
      ∀ v, Library.text (Library.set d table key v) = a ++ quote v ++ b
  writes_quote (v : Text) : Writes (quote v) v
  not_mem_quote (v : Text) : '\r' ∉ quote v
  hasString_set {t table key s : Text} {d : Library.Document} (h : HasString t d table key s) (v : Text) :
    HasString (Library.text (Library.set d table key v)) (Library.set d table key v) table key v
  /-- A string is found on the path of its key. -/
  nodeAt_key {t table key s : Text} {d : Library.Document} (h : HasString t d table key s) :
    ∃ value, nodeAt d (Path.ofNames [table, key]) = .value value ∧ Library.string? value = some s
  /-- All other paths lead to what they led to. -/
  nodeAt_set {t table key s : Text} {d : Library.Document} (h : HasString t d table key s) (v : Text)
    {q : Path} (hq : q ≠ Path.ofNames [table, key]) :
    nodeAt (Library.set d table key v) q = nodeAt d q
  set_set {t table key s : Text} {d : Library.Document} (h : HasString t d table key s) (v w : Text) :
    Library.set (Library.set d table key v) table key w = Library.set d table key w

/-! ## The documents of this project -/

instance : KeyedLibrary where
  nodeAt := Document.nodeAt
  Writes w t := (Token.quoted w t).Sound
  quote t := (Token.ofText t).written

theorem HasString.exists_site {t table key s : Text} {d : Document} (h : HasString t d table key s) :
    ∃ site, Document.ofText? t = .ok d ∧ d.find? [table, key] = some (site, .text s) ∧
      ∀ v, d.setValue [table, key] v = d.set site v := by
  obtain ⟨l, hl, hs⟩ := Option.bind_eq_some_iff.mp h.value
  obtain ⟨site, l', hf, hset⟩ := Document.exists_of_value? (Option.isSome_of_eq_some hl)
  have hvalue : d.value? [table, key] = some l := hl
  rw [Document.value?, hf, Option.map_some, Option.some.injEq] at hvalue
  subst hvalue
  cases l' with
  | text t =>
    cases hs
    exact ⟨site, h.parse, hf, hset⟩
  | _ => cases hs

instance : PreservingLibrary where
  text_of_parse h := (Document.ofText?_eq_ok.mp h).1
  text_set {t table key s d} h := by
    obtain ⟨site, ht, hf, hset⟩ := h.exists_site
    obtain ⟨a, i, b, hi, hsound, rfl, htext⟩ := Document.exists_text_set ht hf
    obtain ⟨w, rfl⟩ := Item.quoted_of_literal?_text hi
    refine ⟨a, w, b, ?_, hsound (.quoted w s) (List.mem_singleton_self _), fun v => ?_⟩
    · change d.text = a ++ w ++ b
      rw [(Document.ofText?_eq_ok.mp ht).1, Item.text, Item.tokensOf_singleton]
      simp [Item.tokens, Token.text, Token.written]
    · change (d.setValue [table, key] v).text = _
      rw [hset, htext]
      rfl
  writes_quote := Token.sound_ofText
  not_mem_quote := Token.not_mem_written_ofText
  hasString_set {t table key s d} h v := by
    obtain ⟨site, ht, hf, hset⟩ := h.exists_site
    constructor
    · change Document.ofText? (d.setValue [table, key] v).text = .ok (d.setValue [table, key] v)
      rw [hset]
      exact Document.ofText?_set ht hf v
    · change (d.setValue [table, key] v).node [table] = .table
      rw [hset]
      exact Document.node_set ht h.node hf v
    · change ((d.setValue [table, key] v).value? [table, key]).bind Literal.string? = some v
      rw [hset, Document.value?_set hf v]
      rfl
  nodeAt_key {t table key s d} h := by
    obtain ⟨site, ht, hf, -⟩ := h.exists_site
    have hvalue : d.value? [table, key] = some (.text s) := by
      rw [Document.value?, hf]
      rfl
    exact ⟨.text s, Document.nodeAt_key ht hvalue, rfl⟩
  nodeAt_set {t table key s d} h v q hq := by
    obtain ⟨site, ht, hf, hset⟩ := h.exists_site
    change (d.setValue [table, key] v).nodeAt q = d.nodeAt q
    rw [hset]
    exact Document.nodeAt_set ht hf hq v
  set_set _ v w := Document.setValue_setValue _ _ v w

end Toml

/-! ## Setting a version -/

namespace Command.Bump

open Errand Release Toml KeyedLibrary

section

variable [Library] [KeyedLibrary] [PreservingLibrary]

variable {t s : Text} {d : Library.Document} {fs : Files} {path : Text} {p : Place}

theorem not_mem_text_set (h : HasString t d projectKey versionKey s) (ht : '\r' ∉ t) (v : Text) :
    '\r' ∉ Library.text (Library.set d projectKey versionKey v) := by
  obtain ⟨a, x, b, htext, -, hset⟩ := PreservingLibrary.text_set h
  rw [PreservingLibrary.text_of_parse h.parse] at htext
  rw [hset]
  simp only [htext, List.mem_append, not_or] at ht ⊢
  exact ⟨⟨ht.1.1, PreservingLibrary.not_mem_quote v⟩, ht.2⟩

omit [PreservingLibrary] [KeyedLibrary] in
theorem stated_of_hasString (h : HasString t d projectKey versionKey s) :
    ∃ value, stated t = .ok (some value) ∧ Library.string? value = some s := by
  obtain ⟨value, hvalue, hs⟩ := Option.bind_eq_some_iff.mp h.value
  refine ⟨value, ?_, hs⟩
  simp only [stated, Settings.version, h.parse, h.node, hvalue, Except.mapError, bind, Except.bind]

omit [PreservingLibrary] [KeyedLibrary] in
theorem runOn_setInSettings (hread : reading fs (Files.plainPath path) = .ok (some (p, t)))
    (h : HasString t d projectKey versionKey s) (v : Text) : (setInSettings path v).runOn fs =
      (.ok (), (Desk.write ⟨fs, []⟩ p (Library.text (Library.set d projectKey versionKey v))).print
        (updated (Files.plainPath path) v)) := by
  obtain ⟨value, hvalue, -⟩ := Option.bind_eq_some_iff.mp h.value
  have hedit : editSettings v t = .ok (Library.text (Library.set d projectKey versionKey v)) := by
    simp only [editSettings, Settings.withVersion, h.parse, h.node, hvalue, Except.mapError, bind,
      Except.bind, Option.isSome_some, if_true]
  simp only [setInSettings, runOn, run_revise, revision, hread, bind, Except.bind, hedit, pure,
    Except.pure]

/-- In settings that state a version it can be set. The new version is stated, no other path leads elsewhere,
and of the text only the characters of the version are others. Of two versions set one after the other the
second one is left. -/
theorem setInSettings_replaces {bytes : ByteArray} {old : Text} (v w : Text)
    (hfile : fs.find (Files.plainPath path) = .file p bytes) (hold : Utf8.decode bytes = .ok old)
    (hstring : HasString (Text.withLineFeeds old) d projectKey versionKey s) :
    let t := Text.withLineFeeds old
    let once := (setInSettings path v).runOn fs
    once.1 = .ok () ∧
    (∃ value, ((currentVersion path).runOn once.2.files).1 = .ok (some value) ∧
      Library.string? value = some v) ∧
    (∃ new d', once.2.files = fs.write p (Utf8.encode new) ∧ Library.parse new = .ok d' ∧
      (∃ value, nodeAt d' (Path.ofNames [projectKey, versionKey]) = .value value ∧
        Library.string? value = some v) ∧
      (∀ q, q ≠ Path.ofNames [projectKey, versionKey] → nodeAt d' q = nodeAt d q) ∧
      ∃ a x b, t = a ++ x ++ b ∧ Writes x s ∧ new = a ++ quote v ++ b ∧ Writes (quote v) v) ∧
    (setInSettings path w).runOn once.2.files = (setInSettings path w).runOn fs := by
  intro t once
  have hread : reading fs (Files.plainPath path) = .ok (some (p, t)) := reading_of_decode hfile hold
  have hset := PreservingLibrary.hasString_set hstring v
  have hnew := not_mem_text_set hstring (not_mem_of_reading hread) v
  have honce : once = _ := runOn_setInSettings hread hstring v
  rw [honce, Desk.files_print, Desk.files_write]
  have hread' := reading_write hread hnew
  refine ⟨rfl, ?_, ⟨_, _, rfl, hset.parse, PreservingLibrary.nodeAt_key hset,
    fun q hq => PreservingLibrary.nodeAt_set hstring v hq, ?_⟩, ?_⟩
  · obtain ⟨value, hstated, hvalue⟩ := stated_of_hasString hset
    refine ⟨value, ?_, hvalue⟩
    simp only [runOn, run_currentVersion, current, hread', hstated, bind, Except.bind]
  · obtain ⟨a, x, b, htext, hx, hset⟩ := PreservingLibrary.text_set hstring
    rw [PreservingLibrary.text_of_parse hstring.parse] at htext
    exact ⟨a, x, b, htext, hx, hset v, PreservingLibrary.writes_quote v⟩
  · rw [runOn_setInSettings hread' hset w, runOn_setInSettings hread hstring w,
      PreservingLibrary.set_set hstring]
    simp only [Desk.write, Files.write_write]

end

/-! ### Settings with two versions -/

/-- Settings in which a key of the same name stands in another table. -/
def twoVersions : Text :=
  "[tool]\r\nversion=\"9\"\r\n[project]\r\nversion='0.1.0' # here\r\n".toList

def twoVersionsItems : List Item :=
  [.group .square [.token (.word "tool".toList)], .token .newline, .token (.word versionKey),
    .token (.mark '='), .token (.quoted "\"9\"".toList "9".toList), .token .newline,
    .group .square [.token (.word projectKey)], .token .newline, .token (.word versionKey),
    .token (.mark '='), .token (.quoted "'0.1.0'".toList "0.1.0".toList), .token (.blank [' ']),
    .token (.comment "# here".toList), .token .newline]

theorem exists_hasString_twoVersions : ∃ d : Library.Document,
    HasString (Text.withLineFeeds twoVersions) d projectKey versionKey "0.1.0".toList ∧
      nodeAt d (Path.ofNames ["tool".toList, versionKey]) = .value (Literal.text "9".toList) := by
  have htokens : Token.all? (Text.withLineFeeds twoVersions) = some (Item.tokensOf twoVersionsItems) := by
    decide +kernel
  have hparse : Document.ofText? (Text.withLineFeeds twoVersions) = Document.ofItems? twoVersionsItems := by
    rw [Document.ofText?, htokens]
    rfl
  exact ⟨_, ⟨hparse.trans rfl, rfl, rfl⟩, rfl⟩

theorem setInSettings_replaces_twoVersions :
    let path := settingsPath
    let fs : Files := ⟨[([path], Utf8.encode twoVersions)], []⟩
    let once := (setInSettings path "0.2.0".toList).runOn fs
    fs.find (Files.plainPath path) = .file [path] (Utf8.encode twoVersions) ∧
      Utf8.decode (Utf8.encode twoVersions) = .ok twoVersions ∧
      (∃ d : Library.Document, HasString (Text.withLineFeeds twoVersions) d projectKey versionKey "0.1.0".toList) ∧
      once.1 = .ok () ∧
      (∃ value, ((currentVersion path).runOn once.2.files).1 = .ok (some value) ∧
        Library.string? value = some "0.2.0".toList) ∧
      (∃ new d', once.2.files = fs.write [path] (Utf8.encode new) ∧ Library.parse new = .ok d' ∧
        nodeAt d' (Path.ofNames ["tool".toList, versionKey]) = .value (Literal.text "9".toList)) ∧
      (setInSettings path "0.10.0".toList).runOn once.2.files =
        (setInSettings path "0.10.0".toList).runOn fs := by
  intro path fs once
  have hfile : fs.find (Files.plainPath path) = .file [path] (Utf8.encode twoVersions) := by rfl
  obtain ⟨d, hstring, htool⟩ := exists_hasString_twoVersions
  obtain ⟨hok, hvalue, ⟨new, d', hfiles, hparse, -, hkept, -⟩, htwice⟩ :=
    setInSettings_replaces "0.2.0".toList "0.10.0".toList hfile (Utf8.decode_encode twoVersions) hstring
  refine ⟨hfile, Utf8.decode_encode _, ⟨d, hstring⟩, hok, hvalue, ⟨new, d', hfiles, hparse, ?_⟩, htwice⟩
  exact (hkept (Path.ofNames ["tool".toList, versionKey]) (by decide)).trans htool

end Command.Bump

end Stylesheet
