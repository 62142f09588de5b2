import Stylesheet.Proofs.Agreement

/-!
# Replacing every match

The pattern of an assignment admits any quoted text on one line, and a match is the shortest admitted text
that begins at a place. A source file is cut at its matches from left to right. Setting a version changes
the matches and nothing between them, so of two versions set one after the other the second one is left.
-/

namespace Stylesheet

namespace Release.Assignment

/-! ## What the pattern admits -/

/-- The texts of the pattern. Quotes may stand between the outer ones, too. -/
def Admits (m : Text) : Prop :=
  ∃ q body q', isQuote q ∧ '\n' ∉ body ∧ isQuote q' ∧ m = head ++ q :: body ++ [q']

/-- Whether the pattern matches somewhere. -/
def Occurs (t : Text) : Prop := ∃ a m b, Admits m ∧ t = a ++ m ++ b

/-- A text cut at its matches from left to right. A character is left where no match begins. -/
inductive LeftmostCut : Text → List Segment → Prop
  | nil : LeftmostCut [] []
  | other {c : Char} {t : Text} {ss : List Segment} (hnone : ∀ m, m <+: c :: t → ¬Admits m)
      (hrest : LeftmostCut t ss) : LeftmostCut (c :: t) (.other c :: ss)
  | assignment {m t : Text} {ss : List Segment} (hm : Admits m)
      (hshort : ∀ m', m' <+: m ++ t → Admits m' → m.length ≤ m'.length)
      (hrest : LeftmostCut t ss) : LeftmostCut (m ++ t) (.assignment m :: ss)

/-- The pieces between the matches, one more than there are matches. -/
def between : List Segment → List Text
  | [] => [[]]
  | .other c :: ss => (between ss).modifyHead (c :: ·)
  | .assignment _ :: ss => [] :: between ss

/-- The matches. -/
def found : List Segment → List Text
  | [] => []
  | .other _ :: ss => found ss
  | .assignment m :: ss => m :: found ss

variable {m t : Text} {ss : List Segment}

theorem IsAssignment.admits (h : IsAssignment m) : Admits m := by
  obtain @⟨q, q', body, hq, hbody, hq'⟩ := h
  refine ⟨q, body, q', hq, fun hfeed => ?_, hq', rfl⟩
  exact absurd (hbody _ hfeed) (by decide)

/-- The first quote behind the opening one ends an assignment. -/
theorem Admits.exists_assignment (h : Admits m) : ∃ m₀ r, IsAssignment m₀ ∧ m = m₀ ++ r := by
  obtain ⟨q, body, q', hq, hfeed, hq', rfl⟩ := h
  have hinner : ∀ c ∈ body.takeWhile isInner, isInner c := fun c hc => List.mem_takeWhile_imp hc
  have hbody := List.takeWhile_append_dropWhile (p := isInner) (l := body)
  rcases hrest : body.dropWhile isInner with _ | ⟨c, rest⟩
  · refine ⟨_, [], .quoted hq hinner hq', ?_⟩
    rw [hrest, List.append_nil] at hbody
    rw [hbody, List.append_nil]
  · -- The first character that may not stand inside is no line feed.
    have hc : isQuote c := by
      have hnot := List.head?_dropWhile_not isInner body
      have hmem : c ∈ body := by rw [← hbody, hrest]; simp
      have hne : c ≠ '\n' := fun he => hfeed (he ▸ hmem)
      rw [hrest] at hnot
      simpa [isInner, hne] using hnot
    refine ⟨_, rest ++ [q'], .quoted hq hinner hc, ?_⟩
    rw [hrest] at hbody
    conv => lhs; rw [← hbody]
    simp

theorem Admits.match? (h : Admits m) (b : Text) :
    ∃ m₀, match? (m ++ b) = some m₀ ∧ m₀.length ≤ m.length := by
  obtain ⟨m₀, r, hm₀, rfl⟩ := h.exists_assignment
  refine ⟨m₀, ?_, by simp⟩
  rw [List.append_assoc]
  exact match?_append hm₀ _

theorem match?_eq_none : match? t = none ↔ ∀ m, m <+: t → ¬Admits m := by
  constructor
  · rintro hnone m ⟨b, rfl⟩ hm
    obtain ⟨m₀, hmatch, -⟩ := hm.match? b
    rw [hnone] at hmatch
    cases hmatch
  · intro h
    rcases hmatch : match? t with _ | m
    · rfl
    · obtain ⟨hm, rest, rfl⟩ := exists_of_match? hmatch
      exact absurd hm.admits (h m (List.prefix_append m rest))

/-- An assignment is an admitted text with no shorter one at its beginning. -/
theorem isAssignment_iff_shortest : IsAssignment m ↔
    Admits m ∧ ∀ m', m' <+: m ++ t → Admits m' → m.length ≤ m'.length := by
  constructor
  · intro h
    refine ⟨h.admits, ?_⟩
    rintro m' ⟨b, hb⟩ hm'
    obtain ⟨m₀, hmatch, hlength⟩ := hm'.match? b
    rw [hb, match?_append h] at hmatch
    cases hmatch
    exact hlength
  · rintro ⟨h, hshort⟩
    obtain ⟨m₀, r, hm₀, rfl⟩ := h.exists_assignment
    have hlength := hshort m₀ (by simp) hm₀.admits
    rw [List.length_append] at hlength
    obtain rfl : r = [] := List.eq_nil_of_length_eq_zero (by omega)
    rwa [List.append_nil]

/-! ## The cut -/

theorem leftmostCut_iff_cuts : LeftmostCut t ss ↔ Cuts t ss := by
  constructor
  · intro h
    induction h with
    | nil => exact .nil
    | other hnone _ ih => exact .other (match?_eq_none.mpr hnone) ih
    | assignment hm hshort _ ih => exact .assignment (isAssignment_iff_shortest.mpr ⟨hm, hshort⟩) ih
  · intro h
    induction h with
    | nil => exact .nil
    | other hnone _ ih => exact .other (match?_eq_none.mp hnone) ih
    | assignment hm _ ih =>
      obtain ⟨hadmits, hshort⟩ := isAssignment_iff_shortest.mp hm
      exact .assignment hadmits hshort ih

/-- There is one cut, and it is the one that is computed. -/
theorem leftmostCut_iff : LeftmostCut t ss ↔ ss = segments t := by
  rw [leftmostCut_iff_cuts]
  constructor
  · intro h
    exact (segments_of_cuts h).symm
  · rintro rfl
    exact cuts_segments t

/-- A text that is cut at no match has none. -/
theorem Cuts.match?_eq_none_of_suffix (h : Cuts t ss) (hss : ¬ss.any Segment.isAssignment) {b : Text}
    (hb : b <:+ t) : match? b = none := by
  induction h with
  | nil =>
    rw [List.suffix_nil.mp hb]
    rfl
  | @other c t ss hnone _ ih =>
    rcases List.suffix_cons_iff.mp hb with rfl | hb
    · exact hnone
    · exact ih hss hb
  | assignment => exact absurd rfl hss

theorem Cuts.occurs (h : Cuts t ss) (hss : ss.any Segment.isAssignment) : Occurs t := by
  induction h with
  | nil => cases hss
  | @other c t ss _ _ ih =>
    obtain ⟨a, m, b, hm, rfl⟩ := ih hss
    exact ⟨c :: a, m, b, hm, rfl⟩
  | @assignment m t ss hm _ _ => exact ⟨[], m, t, hm.admits, rfl⟩

theorem occurs_iff : occurs t ↔ Occurs t := by
  constructor
  · exact (cuts_segments t).occurs
  · rintro ⟨a, m, b, hm, rfl⟩
    by_contra hnot
    have hnone := (cuts_segments (a ++ m ++ b)).match?_eq_none_of_suffix hnot (b := m ++ b)
      (List.append_assoc a m b ▸ List.suffix_append a (m ++ b))
    obtain ⟨m₀, hmatch, -⟩ := hm.match? b
    rw [hnone] at hmatch
    cases hmatch

/-! ## Other matches in the same places -/

variable {v w : Text}

theorem between_put (w : Text) (ss : List Segment) : between (ss.map (Segment.put w)) = between ss := by
  induction ss with
  | nil => rfl
  | cons s ss ih => cases s <;> simp [between, Segment.put, ih]

theorem found_put (w : Text) (ss : List Segment) :
    found (ss.map (Segment.put w)) = List.replicate (found ss).length w := by
  induction ss with
  | nil => rfl
  | cons s ss ih => cases s <;> simp [found, Segment.put, ih, List.replicate_succ]

theorem map_put_put (v w : Text) (ss : List Segment) :
    (ss.map (Segment.put v)).map (Segment.put w) = ss.map (Segment.put w) := by
  rw [List.map_map]
  apply List.map_congr_left
  intro s _
  cases s <;> rfl

theorem putAll_putAll (hv : IsAssignment v) (w t : Text) : putAll w (putAll v t) = putAll w t := by
  rw [putAll, segments_putAll hv, map_put_put, putAll]

end Release.Assignment

/-! ## Source files -/

namespace Command.Bump

open Errand Release Assignment

theorem template_of_isPlain {v : Text} (hv : IsPlain v) : IsAssignment (template v) :=
  isAssignment_template hv.isVersion fun hfeed => by
    rcases hv.char hfeed with h | h <;> exact absurd h (by decide)

section

variable {path : Text} {fs : Files} {p : Place} {t v w : Text}

theorem runOn_setInSource (hread : reading fs (Files.plainPath path) = .ok (some (p, t)))
    (hv : isVersion v) : (setInSource path v).runOn fs =
      if occurs t then (.ok (), (Desk.write ⟨fs, []⟩ p (putAll (template v) t)).print
        (updated (Files.plainPath path) v))
      else (.error (.assignmentMissing (Files.plainPath path)), ⟨fs, []⟩) := by
  simp only [setInSource, runOn, run_revise, revision, hread, bind, Except.bind, editSource_eq hv]
  by_cases ht : occurs t
  · rw [if_pos ht, if_pos ht]
    rfl
  · rw [if_neg ht, if_neg ht]

theorem reading_putAll (hread : reading fs path = .ok (some (p, t))) (hv : isVersion v) (ht : occurs t) :
    reading (fs.write p (Utf8.encode (putAll (template v) t))) path =
      .ok (some (p, putAll (template v) t)) := by
  have hedit : editSource path v t = .ok (putAll (template v) t) := by rw [editSource_eq hv, if_pos ht]
  exact reading_write hread (not_mem_of_editSource hv hedit (not_mem_of_reading hread))

/-- Two versions set one after the other leave what the second one leaves. -/
theorem runOn_setInSource_twice (hread : reading fs (Files.plainPath path) = .ok (some (p, t)))
    (hv : IsPlain v) (hw : isVersion w) :
    (setInSource path w).runOn ((setInSource path v).runOn fs).2.files =
      (setInSource path w).runOn fs := by
  have htemplate := template_of_isPlain hv
  rw [runOn_setInSource hread hv.isVersion]
  by_cases ht : occurs t
  · rw [if_pos ht, Desk.files_print, Desk.files_write,
      runOn_setInSource (reading_putAll hread hv.isVersion ht) hw, runOn_setInSource hread hw,
      occurs_putAll htemplate, if_pos ht, if_pos ht, putAll_putAll htemplate]
    simp only [Desk.write, Files.write_write]
  · rw [if_neg ht]

end

/-- Setting a version in a source file is refused exactly if nothing matches. Otherwise the new text has
the same pieces between its matches and as many matches, all of them assignments of the version. Another
version set before makes no difference. -/
theorem setInSource_replaces {path : Text} {fs : Files} {p : Place} {bytes : ByteArray} {old v w : Text}
    (hfile : fs.find (Files.plainPath path) = .file p bytes) (hold : Utf8.decode bytes = .ok old)
    (hv : IsPlain v) (hw : IsPlain w) :
    let t := Text.withLineFeeds old
    let once := (setInSource path v).runOn fs
    (once.1 = .error (.assignmentMissing (Files.plainPath path)) ↔ ¬Occurs t) ∧
    (Occurs t → once.1 = .ok () ∧ ∃ new ss ss', once.2.files = fs.write p (Utf8.encode new) ∧
      LeftmostCut t ss ∧ LeftmostCut new ss' ∧ between ss' = between ss ∧
      found ss' = List.replicate (found ss).length (template v)) ∧
    (setInSource path w).runOn once.2.files = (setInSource path w).runOn fs := by
  intro t once
  have hread : reading fs (Files.plainPath path) = .ok (some (p, t)) := reading_of_decode hfile hold
  have honce : once = _ := runOn_setInSource hread hv.isVersion
  rw [← occurs_iff]
  refine ⟨?_, fun ht => ?_, runOn_setInSource_twice hread hv hw.isVersion⟩
  · rw [honce]
    by_cases ht : occurs t <;> simp [ht]
  · rw [if_pos ht] at honce
    rw [honce]
    refine ⟨rfl, _, _, _, rfl, leftmostCut_iff.mpr rfl, leftmostCut_iff.mpr rfl, ?_, ?_⟩
    · rw [segments_putAll (template_of_isPlain hv), between_put]
    · rw [segments_putAll (template_of_isPlain hv), found_put]

/-- Two assignments with quotes that do not match, on lines that end in two ways. -/
theorem setInSource_replaces_mixed_quotes :
    let path := "a.py".toList
    let old := "__version__ = \"a'\r\n__version__ = 'b\"\"\n".toList
    let fs : Files := ⟨[([path], Utf8.encode old)], []⟩
    let once := (setInSource path "0.2.0".toList).runOn fs
    fs.find (Files.plainPath path) = .file [path] (Utf8.encode old) ∧
      Utf8.decode (Utf8.encode old) = .ok old ∧ IsPlain "0.2.0".toList ∧ IsPlain "0.10.0".toList ∧
      Occurs (Text.withLineFeeds old) ∧ once.1 = .ok () ∧
      (∃ new ss', once.2.files = fs.write [path] (Utf8.encode new) ∧ LeftmostCut new ss' ∧
        between ss' = [[], ['\n'], ['"', '\n']] ∧
        found ss' = [template "0.2.0".toList, template "0.2.0".toList]) ∧
      (setInSource path "0.10.0".toList).runOn once.2.files =
        (setInSource path "0.10.0".toList).runOn fs := by
  intro path old fs once
  have hfile : fs.find (Files.plainPath path) = .file [path] (Utf8.encode old) := by rfl
  have hoccurs : Occurs (Text.withLineFeeds old) := occurs_iff.mp (by decide)
  obtain ⟨-, hset, htwice⟩ := setInSource_replaces (v := "0.2.0".toList) (w := "0.10.0".toList) hfile
    (Utf8.decode_encode old) (by decide) (by decide)
  obtain ⟨hok, new, ss, ss', hfiles, hcut, hcut', hbetween, hfound⟩ := hset hoccurs
  rw [leftmostCut_iff.mp hcut] at hbetween hfound
  exact ⟨hfile, Utf8.decode_encode old, by decide, by decide, hoccurs, hok,
    ⟨new, ss', hfiles, hcut', hbetween.trans (by decide), hfound.trans (by decide)⟩, htwice⟩

end Command.Bump

end Stylesheet
