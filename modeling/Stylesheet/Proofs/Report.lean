import Mathlib.Data.Nat.Find
import Stylesheet.Report
import Stylesheet.Proofs.Extent
import Stylesheet.Proofs.Work

/-!
# One report for each failure

Wherever a production fails, and however deep, its failure is written down once and told once. What
else is written down are the rules that were completed. A listener makes no difference to the rest.
-/

namespace Stylesheet

namespace Report

variable {α β : Type} {source : Text}

/-- What there is to report: the diagnostic of a rejection. -/
def diagnostics (r : Report α) : List Diagnostic :=
  match r.outcome with
  | .ok _ => []
  | .error .outside => []
  | .error (.rejected e) => [e.diagnostic]

/-- A production, with a listener or without, that completes some rules. The journal has an entry for
each of them and then one for each diagnostic, and the listener hears each diagnostic. -/
structure Once (done : Except Stop α → List Rule) (r : Bool → Report α) : Prop where
  journal : (r true).journal =
    ((done (r true).outcome).map fun q => .ruleParsed q.selector.text q.declarations.length) ++
      (r true).diagnostics.map fun d => .parseFailed d.offset d.message
  told : (r true).told = (r true).diagnostics.map Diagnostic.render
  unheard : r false = { r true with told := [] }

/-! ## Tokens and rules -/

theorem once_token (source : Text) (x : Except Failure α) :
    Once (fun _ => []) (fun listening => token source listening x) := by
  cases x <;> exact ⟨rfl, rfl, rfl⟩

def completed {pos : Type} : Except Stop (Rule × pos) → List Rule
  | .ok (r, _) => [r]
  | .error _ => []

theorem once_record (source : Text) (x : Except Failure (Rule × Cursor)) :
    Once completed (fun listening => token source listening x >>= record) := by
  cases x <;> exact ⟨rfl, rfl, rfl⟩

/-! ## Reading at a position -/

theorem bind_pure_eq (r : Report α) (f : α → β) : (r >>= fun a => pure (f a)) = r.map f := by
  obtain ⟨outcome, journal, told⟩ := r
  cases outcome <;> simp [bind, pure, andThen, map, Except.map]

theorem Once.map {done : Except Stop β → List Rule} {r : Bool → Report α} {f : α → β}
    (h : Once (fun o => done (o.map f)) r) :
    Once done (fun listening => r listening >>= fun a => pure (f a)) := by
  have hdiagnostics : ((r true).map f).diagnostics = (r true).diagnostics := by
    simp only [diagnostics, Report.map]
    rcases (r true).outcome with (_ | _) | _ <;> rfl
  simp only [bind_pure_eq]
  refine ⟨?_, ?_, ?_⟩
  · rw [hdiagnostics]
    exact h.journal
  · rw [hdiagnostics]
    exact h.told
  · rw [h.unheard]
    rfl

theorem Once.seek {done : Except Stop α → List Rule} {r : Cursor → Bool → Report α}
    (hr : ∀ c, Once done (r c)) (hdone : done (.error .outside) = []) (source : Text) (pos : Int) :
    Once done (fun listening => seek source pos >>= fun c => r c listening) := by
  unfold Report.seek
  cases Cursor.ofPos? source pos with
  | none =>
    refine ⟨?_, rfl, rfl⟩
    change [] = (done (.error .outside)).map _ ++ []
    rw [hdone]
    rfl
  | some c => exact hr c

/-! ## Rules up to a failure -/

theorem rulesAt_eq (source : Text) (listening : Bool) (c : Cursor) :
    rulesAt source listening c =
      match c.rules source with
      | (rs, none) => ⟨.ok rs, rs.map Entry.ofRule, []⟩
      | (rs, some f) =>
        { token source listening (.error f) with
          journal := rs.map Entry.ofRule ++ [.ofError (f.error source)] } := by
  fun_induction Cursor.rules source c with
  | case1 c hnil =>
    rw [rulesAt, if_pos hnil]
    rfl
  | case2 c hne f hf =>
    rw [rulesAt, if_neg hne, ruleAt_eq, hf]
    cases listening <;> rfl
  | case3 c hne r next hr rs end? hrs ih =>
    rw [rulesAt, if_neg hne, ruleAt_eq, hr]
    rw [hrs] at ih
    -- The entry of the rule comes before what the other rules write down.
    let others := rulesAt source listening next >>= fun rs => pure (r :: rs)
    change (⟨others.outcome, [.ofRule r] ++ others.journal, others.told⟩ : Report _) = _
    simp only [others, bind_pure_eq, ih]
    cases end? <;> cases listening <;> rfl

theorem once_sheet (source : Text) :
    Once (fun _ => (Sheet.read source).1) (fun listening => sheet source listening) := by
  refine Once.map (f := Sheet.mk) ?_
  simp only [rulesAt_eq, Sheet.read]
  rcases (Cursor.start source).rules source with ⟨rs, _ | f⟩
  · exact ⟨(List.append_nil _).symm, rfl, rfl⟩
  · exact ⟨rfl, rfl, rfl⟩

end Report

/-! ## The rules before a failure -/

/-- What a source begins with is accepted with this sheet, and nothing longer is accepted. -/
def LongestAccepted (source : Text) (s : Sheet) : Prop :=
  ∃ k ≤ source.length, Sheet.parse? (source.take k) = .ok s ∧
    ∀ m, k < m → m ≤ source.length → ¬ Accepted (source.take m)

theorem exists_longestAccepted (source : Text) : ∃ s, LongestAccepted source s := by
  classical
  let k := Nat.findGreatest (fun k => Accepted (source.take k)) source.length
  have haccepted : Accepted (source.take k) :=
    Nat.findGreatest_spec (P := fun k => Accepted (source.take k)) (Nat.zero_le _)
      (accepted_of_blanks .nil)
  have hgreatest : ∀ m, k < m → m ≤ source.length → ¬ Accepted (source.take m) :=
    fun m => Nat.findGreatest_is_greatest
  obtain ⟨s, hs⟩ := haccepted
  exact ⟨s, k, Nat.findGreatest_le _, hs, hgreatest⟩

/-- Where a rule can still be read, there is a longer text that is accepted. -/
theorem exists_accepted_longer {source : Text} {k : Nat} (hk : k ≤ source.length)
    (haccepted : Accepted (source.take k)) (hread : (Sheet.read (source.drop k)).1 ≠ []) :
    ∃ m, k < m ∧ m ≤ source.length ∧ Accepted (source.take m) := by
  obtain ⟨r, rs, hrs⟩ := List.exists_cons_of_ne_nil hread
  obtain ⟨t, u, hsplit, hne, ht⟩ := exists_accepted_of_read hrs
  have hlonger : source.take (k + t.length) = source.take k ++ t := by
    rw [List.take_add, hsplit, List.take_left]
  have hlength := congrArg List.length hsplit
  have hpositive := List.length_pos_of_ne_nil hne
  simp only [List.length_drop, List.length_append] at hlength
  refine ⟨k + t.length, by omega, by omega, ?_⟩
  rw [hlonger]
  exact haccepted.append ht

section
variable {source : Text} {s s' : Sheet}

/-- The rules that were read before a failure are those of the longest accepted text. -/
theorem LongestAccepted.rules_eq (h : LongestAccepted source s) :
    s.rules.map Rule.content = (Sheet.read source).1.map Rule.content := by
  obtain ⟨k, hk, hs, hgreatest⟩ := h
  have hread := read_append hs (source.drop k)
  rw [List.take_append_drop] at hread
  have hnone : (Sheet.read (source.drop k)).1 = [] := by
    by_contra hsome
    obtain ⟨m, hlt, hle, hlonger⟩ := exists_accepted_longer hk ⟨s, hs⟩ hsome
    exact hgreatest m hlt hle hlonger
  rw [hread, hnone, List.map_nil, List.append_nil, List.map_map]
  apply List.map_congr_left
  intro r hr
  exact (((extents_of_parse? hs).2 r hr).content_before _).symm

/-- The longest accepted text of an accepted source is the source. -/
theorem LongestAccepted.eq_of_parse? (h : LongestAccepted source s)
    (hparse : Sheet.parse? source = .ok s') : s = s' := by
  obtain ⟨k, hk, hs, hgreatest⟩ := h
  rcases Nat.lt_or_eq_of_le hk with hlt | rfl
  · refine absurd ?_ (hgreatest source.length hlt (Nat.le_refl _))
    rw [List.take_length]
    exact ⟨s', hparse⟩
  · rw [List.take_length, hparse] at hs
    cases hs
    rfl

end

namespace Report

theorem sheet_outcome (source : Text) (listening : Bool) :
    (sheet source listening).outcome =
      match Sheet.parse? source with
      | .ok s => .ok s
      | .error e => .error (.rejected e) := by
  unfold sheet
  rw [bind_pure_eq, rulesAt_eq, Sheet.parse?, Sheet.read]
  rcases (Cursor.start source).rules source with ⟨rs, _ | f⟩
  · rfl
  · cases listening <;> rfl

theorem sheet_eq_ok {source : Text} {listening : Bool} {s : Sheet} :
    (sheet source listening).outcome = .ok s ↔ Sheet.parse? source = .ok s := by
  rw [sheet_outcome]
  cases Sheet.parse? source <;> simp

/-- A parser writes down what the report of its text has, and then that the error was reported. -/
theorem opening_eq (text : Text) :
    Sheet.opening text = (sheet text true).journal ++ (sheet text true).told.map Entry.errorReported := by
  unfold sheet Sheet.opening
  rw [bind_pure_eq, rulesAt_eq, Sheet.parse?, Sheet.read]
  rcases (Cursor.start text).rules text with ⟨rs, _ | f⟩
  · rfl
  · simp [Report.map, token, fail, tell, write, stop, bind, andThen]

/-- An entry says of a rule what its content says. -/
theorem Once.congr_rules {rs rs' : List Rule} {r : Bool → Report α} (h : Once (fun _ => rs) r)
    (hcontent : rs'.map Rule.content = rs.map Rule.content) : Once (fun _ => rs') r := by
  refine ⟨?_, h.told, h.unheard⟩
  have hentries (qs : List Rule) :
      qs.map (fun q => Entry.ruleParsed q.selector.text q.declarations.length) =
        (qs.map Rule.content).map fun c => Entry.ruleParsed c.selector c.declarations.length := by
    simp [Rule.content]
  rw [h.journal, hentries, hentries, hcontent]

/-- Every production, at every position, reports its failure once: to the journal behind the rules that
were completed, and to the listener if there is one. A rule completes itself. The rules that a sheet
completes are those of the longest text that the source begins with and that is accepted. If the source
is read to its end, this is the sheet that comes out. -/
theorem diagnostic_once (source : Text) :
    (∀ pos, Once (fun _ => []) (fun listening => blanks source listening pos)) ∧
    (∀ pos m, Once (fun _ => []) (fun listening => mark source listening pos m)) ∧
    (∀ pos, Once (fun _ => []) (fun listening => word source listening pos)) ∧
    (∀ pos, Once (fun _ => []) (fun listening => declaration source listening pos)) ∧
    (∀ pos, Once completed (fun listening => rule source listening pos)) ∧
    ∃ s, LongestAccepted source s ∧ (∀ t, (sheet source true).outcome = .ok t → s = t) ∧
      Once (fun _ => s.rules) (fun listening => sheet source listening) := by
  refine ⟨fun pos => ?_, fun pos m => ?_, fun pos => ?_, fun pos => ?_, fun pos => ?_, ?_⟩
  · exact Once.seek (r := fun c _ => pure c.skip.pos) (fun c => ⟨rfl, rfl, rfl⟩) rfl source pos
  · exact Once.seek (fun c => Once.map (once_token source _)) rfl source pos
  · exact Once.seek (fun c => Once.map (once_token source _)) rfl source pos
  · refine Once.seek (fun c => Once.map ?_) rfl source pos
    simp only [declarationAt_eq]
    exact once_token source _
  · refine Once.seek (fun c => Once.map ?_) rfl source pos
    simp only [ruleAt_eq]
    convert once_record source (c.rule source) using 2 with o
    rcases o with _ | ⟨r, next⟩ <;> rfl
  · obtain ⟨s, hlongest⟩ := exists_longestAccepted source
    refine ⟨s, hlongest, fun t ht => ?_, (once_sheet source).congr_rules hlongest.rules_eq⟩
    exact hlongest.eq_of_parse? (sheet_eq_ok.mp ht)

end Report

end Stylesheet
