import Stylesheet.Proofs.Direct

/-!
# Rounds

An event is told in a round: the listeners are called place by place, those included that come to the
list while the round goes on. A parse makes one round for every rule and one for the end of the text,
or one for its error. An error that a listener lets escape breaks off the round and the parse.
-/

namespace Stylesheet

variable {depth place : Nat} {e : Event} {notice : Notice} {w w' : World}

/-! ## One round -/

theorem take_succ_drop {α : Type} {as : List α} {a : α} {k : Nat} (h : as[k]? = some a) (m : Nat) :
    (as.drop k).take (m + 1) = a :: (as.drop (k + 1)).take m := by
  obtain ⟨hk, rfl⟩ := List.getElem?_eq_some_iff.mp h
  rw [List.drop_eq_getElem_cons hk, List.take_succ_cons]

namespace Work

/-- Behind the last place nothing is called. -/
theorem forM_call_of_length_le {tell : Telling} {k : Nat} (n : Nat)
    (h : (w.parser.roster.of e).length ≤ k) :
    ((List.range' k n).forM (call tell depth e notice)).run.run w = (.ok (), w) := by
  induction n generalizing k with
  | zero => rfl
  | succ n ih =>
    rw [List.range'_succ, List.forM,
      run_bind_of_ok (call_run_of_none (List.getElem?_eq_none h)), ih (by omega)]

/-- A round from place `k` on visits everyone from there, as the list is at the end of the round. If an
error escapes, it does so in the last visit. -/
theorem round_from (depth : Nat) (e : Event) (notice : Notice) (k n : Nat) (w : World) :
    let ended := ((List.range' k n).forM (call (tellAt (depth + 1)) depth e notice)).run.run w
    let all := ended.2.parser.roster.everyone e notice
    ∃ m, Tells depth w ended ((all.drop k).take m) ∧
      match ended.1 with
      | .ok () => m = n
      | .error _ => 0 < m ∧ k + m ≤ all.length := by
  have hcall : ∀ place, (call (tellAt (depth + 1)) depth e notice place).Within depth :=
    (movesLaw depth).call ((movesLaw depth).tellAt (Nat.le_succ depth)) (Nat.le_refl depth) e notice
  -- On the number of places left. The list only grows, so who is called now has the same place on the
  -- list as it is at the end.
  induction n generalizing k w with
  | zero => exact ⟨0, tells_nil w, rfl⟩
  | succ n ih =>
    cases hl : (w.parser.roster.of e)[k]? with
    | none =>
      have hlength : (w.parser.roster.of e).length ≤ k := List.getElem?_eq_none_iff.mp hl
      rw [forM_call_of_length_le (n + 1) hlength]
      refine ⟨n + 1, ?_, rfl⟩
      rw [List.drop_eq_nil_of_le (by rwa [Roster.length_everyone]), List.take_nil]
      exact tells_nil w
    | some l =>
      have hfirst : Tells depth w _ _ := tells_call notice hl
      have hmoves : Moves depth w _ := hcall k w
      rw [List.range'_succ, List.forM, run_bind]
      split
      · rename_i w₁ hrun
        rw [hrun] at hfirst hmoves
        have hrounds : ((List.range' (k + 1) n).forM
            (call (tellAt (depth + 1)) depth e notice)).Within depth := (movesLaw depth).forM hcall
        have hmoves' := hrounds w₁
        have hlater := Moves.everyone_at (hmoves.trans hmoves') hl notice
        obtain ⟨m, hrest, hm⟩ := ih (k + 1) w₁
        refine ⟨m + 1, ?_, ?_⟩
        · rw [take_succ_drop hlater]
          exact hfirst.trans hrest hmoves hmoves'
        · split <;> rename_i hend <;> rw [hend] at hm <;> simp only at hm <;> omega
      · rename_i error w₁ hrun
        rw [hrun] at hfirst hmoves
        have hlater := hmoves.everyone_at hl notice
        refine ⟨1, ?_, Nat.one_pos, (List.getElem?_eq_some_iff.mp hlater).1⟩
        rwa [take_succ_drop hlater]

/-- A round visits everyone who is on the list when it ends. If an error escapes, it does so in the
last visit, and the round goes no further. -/
theorem tell_round (depth : Nat) (e : Event) (notice : Notice) (w : World) :
    let ended := (tellAt depth e notice).run.run w
    let all := ended.2.parser.roster.everyone e notice
    match ended.1 with
    | .ok () => Tells depth w ended all
    | .error _ => ∃ m, 0 < m ∧ m ≤ all.length ∧ Tells depth w ended (all.take m) := by
  -- The round has at least as many turns as the list has places when it ends.
  have hplaces := (Gauge.places e).law.tellAt (Nat.zero_le depth) e notice w
  obtain ⟨m, htells, hm⟩ := round_from depth e notice 0
    ((w.parser.roster.of e).length + w.parser.roster.pending) w
  rw [← List.range_eq_range', ← visit_run] at htells hm
  rw [tellAt_eq] at hplaces ⊢
  simp only [Gauge.places, List.drop_zero, Nat.zero_add] at hplaces htells hm ⊢
  split
  · rename_i hend
    rw [hend] at hm
    rwa [List.take_of_length_le] at htells
    rw [Roster.length_everyone]
    omega
  · rename_i hend
    rw [hend] at hm
    exact ⟨m, hm.1, hm.2, htells⟩

end Work

/-! ## Round after round -/

/-- The world after some events are told. -/
def World.told (depth : Nat) (ns : List (Event × Notice)) (w : World) : World :=
  ((Work.tellAll (Work.tellAt depth) ns).run.run w).2

/-- The visits of one full round for each event, everyone on the list as it stands when the round
ends. -/
def rounds (depth : Nat) (w : World) : List (Event × Notice) → List Visit
  | [] => []
  | n :: ns =>
    let w' := w.told depth [n]
    w'.parser.roster.everyone n.1 n.2 ++ rounds depth w' ns

theorem told_singleton {n : Event × Notice} {r : Except Raised Unit}
    (h : (Work.tellAt depth n.1 n.2).run.run w = (r, w')) : w.told depth [n] = w' := by
  rw [World.told, Work.tellAll_singleton, h]

namespace Work

/-- Telling makes one full round after another. An error that escapes breaks off the last one. -/
theorem tellAll_rounds (depth : Nat) (ns : List (Event × Notice)) (w : World) :
    let ended := (tellAll (tellAt depth) ns).run.run w
    match ended.1 with
    | .ok () => Tells depth w ended (rounds depth w ns)
    | .error _ => ∃ i n m, ns[i]? = some n ∧ 0 < m ∧
        m ≤ (ended.2.parser.roster.everyone n.1 n.2).length ∧
        Tells depth w ended
          (rounds depth w (ns.take i) ++ (ended.2.parser.roster.everyone n.1 n.2).take m) := by
  induction ns generalizing w with
  | nil => exact tells_nil w
  | cons n ns ih =>
    have hround := tell_round depth n.1 n.2 w
    have hmoves : Moves depth w _ := within_tellAt depth n.1 n.2 w
    rw [tellAll_cons, run_bind]
    rcases hrun : (tellAt depth n.1 n.2).run.run w with ⟨r, w₁⟩
    rw [hrun] at hround hmoves
    have htold := told_singleton hrun
    cases r with
    | error error =>
      obtain ⟨m, hpos, hm, htells⟩ := hround
      exact ⟨0, n, m, rfl, hpos, hm, htells⟩
    | ok =>
      have hmoves' : Moves depth w₁ _ := within_tellAll depth ns w₁
      have hrest := ih w₁
      simp only at hrest hround ⊢
      rcases hrun' : (tellAll (tellAt depth) ns).run.run w₁ with ⟨r', w₂⟩
      rw [hrun'] at hrest hmoves'
      cases r' with
      | ok =>
        simp only [rounds, htold]
        exact hround.trans hrest hmoves hmoves'
      | error error =>
        obtain ⟨i, n', m, hi, hpos, hm, htells⟩ := hrest
        refine ⟨i + 1, n', m, hi, hpos, hm, ?_⟩
        simp only [List.take_succ_cons, rounds, htold, List.append_assoc]
        exact hround.trans htells hmoves hmoves'

/-- A parse makes all its rounds and ends with what reading the text gives, or an error escapes in the
last visit of a round, and the parse ends with it. -/
theorem parse_rounds (depth : Nat) (text : Text) (w : World) :
    let ended := (Work.parse (tellAt depth) text).run.run w
    let start := w.opened text
    let ns := Sheet.notices text
    (ended = (Sheet.ending text, (start.told depth ns).closed text) ∧
      (tellAll (tellAt depth) ns).run.run start = (.ok (), start.told depth ns) ∧
      Tells depth w (.ok (), ended.2) (rounds depth start ns)) ∨
    ∃ error i n m, ended.1 = .error error ∧ ns[i]? = some n ∧ 0 < m ∧
      m ≤ (ended.2.parser.roster.everyone n.1 n.2).length ∧
      Tells depth w (.error error, ended.2)
        (rounds depth start (ns.take i) ++ (ended.2.parser.roster.everyone n.1 n.2).take m) := by
  have hopened : Moves (depth + 1) w (w.opened text) := .single (.parse text w)
  have hmoves : Moves depth (w.opened text) _ :=
    within_tellAll depth (Sheet.notices text) (w.opened text)
  have hopen := hopened.mono (Nat.le_succ depth)
  have hrounds := tellAll_rounds depth (Sheet.notices text) (w.opened text)
  simp only [parse_run, World.told]
  rcases hrun : (tellAll (tellAt depth) (Sheet.notices text)).run.run (w.opened text) with ⟨r, w₁⟩
  rw [hrun] at hrounds hmoves
  cases r with
  | ok =>
    have hclosed : Moves (depth + 1) w₁ (w₁.closed text) := moves_noteAll _ _ w₁
    have hclose := hclosed.mono (Nat.le_succ depth)
    have htold := (tells_inside hopened).trans hrounds hopen hmoves
    have hall := htold.trans (tells_inside hclosed) (hopen.trans hmoves) hclose
    rw [List.nil_append, List.append_nil] at hall
    exact .inl ⟨rfl, rfl, hall⟩
  | error error =>
    obtain ⟨i, n, m, hi, hpos, hm, htells⟩ := hrounds
    exact .inr ⟨error, i, n, m, rfl, hi, hpos, hm,
      (tells_inside hopened).trans htells hopen hmoves⟩

theorem broken_ne_nil {vs all : List Visit} {m : Nat} (hpos : 0 < m) (hm : m ≤ all.length) :
    vs ++ all.take m ≠ [] := by
  intro hnone
  have := congrArg List.length hnone
  simp only [List.length_append, List.length_take, List.length_nil] at this
  omega

/-- Listeners do not change what a parse comes to. If no listener that it calls itself lets an error
escape, the parse ends with what reading the text gives, whatever was parsed meanwhile. If it ends with
another error, the last listener that it called let this one escape. -/
theorem parse_ends_as_read (depth : Nat) (text : Text) (w : World) :
    let ended := (Work.parse (tellAt depth) text).run.run w
    (World.escapes depth w ended.2 = [] → ended.1 = Sheet.ending text) ∧
    ∀ error, ended.1 = .error error → Sheet.ending text ≠ .error error →
      ∃ before c, World.direct depth w ended.2 = before ++ [.called c, .escaped depth error] := by
  rcases parse_rounds depth text w with ⟨hread, -, -⟩ | ⟨error, i, n, m, hend, -, hpos, hm, htells⟩
  · rw [hread]
    exact ⟨fun _ => rfl, fun error hend hne => absurd hend hne⟩
  · refine ⟨fun hnone => ?_, fun error' hend' _ => ?_⟩
    · rw [htells.escapes] at hnone
      cases hnone
    · obtain rfl : error' = error := Except.error.inj (hend'.symm.trans hend)
      exact htells.last (broken_ne_nil hpos hm)

end Work

/-! ## Listeners that come late -/

/-- What the listener at a place of an event is told in some visits. -/
def heard (e : Event) (place : Nat) (vs : List Visit) : List Notice :=
  (vs.filter fun v => v.event = e ∧ v.place = place).map (·.notice)

theorem heard_append (e : Event) (place : Nat) (vs vs' : List Visit) :
    heard e place (vs ++ vs') = heard e place vs ++ heard e place vs' := by
  simp [heard]

theorem heard_cons (e : Event) (place : Nat) (v : Visit) (vs : List Visit) :
    heard e place (v :: vs) =
      (if v.event = e ∧ v.place = place then [v.notice] else []) ++ heard e place vs := by
  by_cases h : v.event = e ∧ v.place = place <;> simp [heard, h]

/-- A listener hears of a round once, if it has a place on the list by the end of it. -/
theorem heard_everyone (e e' : Event) (place : Nat) (r : Roster) (notice : Notice) :
    heard e place (r.everyone e' notice) =
      if e' = e ∧ place < (r.of e').length then [notice] else [] := by
  have hfrom : ∀ (ids : List Text) (k : Nat),
      heard e place ((ids.zipIdx k).map fun l => ⟨e', l.2, l.1, notice⟩) =
        if e' = e ∧ k ≤ place ∧ place < k + ids.length then [notice] else [] := by
    intro ids
    induction ids with
    | nil =>
      intro k
      rw [if_neg (by simp)]
      rfl
    | cons id ids ih =>
      intro k
      rw [List.zipIdx_cons, List.map_cons, heard_cons, ih (k + 1), List.length_cons]
      by_cases he : e' = e
      · simp only [he, true_and]
        by_cases hk : k = place
        · rw [if_pos hk, if_neg (by omega), if_pos (by omega), List.append_nil]
        · have hsame : (k + 1 ≤ place ∧ place < k + 1 + ids.length) ↔
              (k ≤ place ∧ place < k + (ids.length + 1)) := by omega
          simp only [hk, if_false, hsame, List.nil_append]
      · simp [he]
  simpa [Roster.everyone, Roster.ids] using hfrom (r.ids e') 0

namespace Work

theorem moves_of_tellAll {ns : List (Event × Notice)} {r : Except Raised Unit}
    (h : (tellAll (tellAt depth) ns).run.run w = (r, w')) : Moves depth w w' := by
  have hmoves := within_tellAll depth ns w
  rwa [h] at hmoves

theorem rounds_append {w₁ : World} {ns ns' : List (Event × Notice)}
    (h : (tellAll (tellAt depth) ns).run.run w = (.ok (), w₁)) :
    rounds depth w (ns ++ ns') = rounds depth w ns ++ rounds depth w₁ ns' := by
  induction ns generalizing w with
  | nil =>
    cases h
    rfl
  | cons n ns ih =>
    obtain ⟨⟨⟩, w₂, hrun, hrest⟩ := exists_of_run_bind h
    simp only [List.cons_append, rounds, told_singleton hrun, ih hrest, List.append_assoc]

/-- Who comes to the list after some full rounds has heard nothing in them. -/
theorem heard_before {ns : List (Event × Notice)}
    (h : (tellAll (tellAt depth) ns).run.run w = (.ok (), w')) {e : Event} {place : Nat}
    (hplace : (w'.parser.roster.of e).length ≤ place) : heard e place (rounds depth w ns) = [] := by
  induction ns generalizing w with
  | nil => rfl
  | cons n ns ih =>
    obtain ⟨⟨⟩, w₁, hrun, hrest⟩ := exists_of_run_bind h
    have hgrow := (moves_of_tellAll hrest).length_of e
    simp only [rounds, told_singleton hrun, heard_append, heard_everyone, ih hrest,
      List.append_nil]
    rw [if_neg]
    rintro ⟨rfl, hearly⟩
    omega

/-- Who is on the list before some full rounds hears everything in them that its event tells. -/
theorem heard_after {ns : List (Event × Notice)}
    (h : (tellAll (tellAt depth) ns).run.run w = (.ok (), w')) {e : Event} {place : Nat}
    (hplace : place < (w.parser.roster.of e).length) :
    heard e place (rounds depth w ns) = (ns.filter (·.1 = e)).map (·.2) := by
  induction ns generalizing w with
  | nil => rfl
  | cons n ns ih =>
    obtain ⟨⟨⟩, w₁, hrun, hrest⟩ := exists_of_run_bind h
    have hfirst : (tellAll (tellAt depth) [n]).run.run w = (.ok (), w₁) := by
      rw [tellAll_singleton, hrun]
    have hthere := Nat.lt_of_lt_of_le hplace ((moves_of_tellAll hfirst).length_of e)
    simp only [rounds, told_singleton hrun, heard_append, heard_everyone, ih hrest hthere,
      List.filter_cons]
    by_cases he : n.1 = e
    · simp [he, hthere]
    · simp [he]

/-- A listener that comes to the list in some round hears what its event tells from this round on. -/
theorem heard_late {before after : List (Event × Notice)} {n : Event × Notice}
    (h : (tellAll (tellAt depth) (before ++ n :: after)).run.run w = (.ok (), w')) {e : Event}
    {place : Nat}
    (hcame : ((w.told depth before).parser.roster.of e).length ≤ place)
    (hthere : place < ((w.told depth (before ++ [n])).parser.roster.of e).length) :
    heard e place (rounds depth w (before ++ n :: after)) =
      ((n :: after).filter (·.1 = e)).map (·.2) := by
  rw [tellAll_append] at h
  obtain ⟨⟨⟩, w₁, hbefore, h⟩ := exists_of_run_bind h
  obtain ⟨⟨⟩, w₂, hrun, hafter⟩ := exists_of_run_bind h
  have hboth : (tellAll (tellAt depth) (before ++ [n])).run.run w = (.ok (), w₂) := by
    rw [tellAll_append, tellAll_singleton, run_bind_of_ok hbefore, hrun]
  rw [World.told, hbefore] at hcame
  rw [World.told, hboth] at hthere
  simp only [rounds_append hbefore, rounds, told_singleton hrun, heard_append,
    heard_before hbefore hcame, heard_after hafter hthere, heard_everyone, List.nil_append,
    List.filter_cons]
  by_cases he : n.1 = e
  · have hplace : place < (w₂.parser.roster.of e).length := hthere
    simp [he, hplace]
  · simp [he]

theorem heard_late_rule {s : Sheet} {i : Nat}
    (h : (tellAll (tellAt depth) (s.ruleNotices ++ [(.parseCompleted, .completed)])).run.run w =
      (.ok (), w'))
    (hi : i < s.rules.length)
    (hcame : ((w.told depth (s.ruleNotices.take i)).parser.roster.of .ruleAdded).length ≤ place)
    (hthere :
      place < ((w.told depth (s.ruleNotices.take (i + 1))).parser.roster.of .ruleAdded).length) :
    heard .ruleAdded place (rounds depth w (s.ruleNotices ++ [(.parseCompleted, .completed)])) =
      (s.rules.drop i).map .rule := by
  have hi' : i < s.ruleNotices.length := by simpa [Sheet.ruleNotices] using hi
  have hsplit : s.ruleNotices ++ [(.parseCompleted, .completed)] = s.ruleNotices.take i ++
      s.ruleNotices[i] :: (s.ruleNotices.drop (i + 1) ++ [(.parseCompleted, .completed)]) := by
    rw [← List.cons_append, ← List.drop_eq_getElem_cons hi', ← List.append_assoc,
      List.take_append_drop]
  rw [← List.take_append_getElem hi'] at hthere
  rw [hsplit] at h ⊢
  rw [heard_late h hcame hthere, ← List.cons_append, ← List.drop_eq_getElem_cons hi',
    Sheet.ruleNotices, ← List.map_drop]
  generalize s.rules.drop i = rs
  have hrules : (rs.map fun r => (Event.ruleAdded, Notice.rule r)).filter (·.1 = .ruleAdded) =
      rs.map fun r => (.ruleAdded, .rule r) := by
    rw [List.filter_eq_self]
    simp
  simp [hrules]

/-- The calls that a parse makes itself. If none of them lets an error escape, an accepted text has a
round for every rule in order and one for its end, each over everyone who is on the list when the round
ends; who comes to the list in the round of a rule hears this rule and all later ones. A rejected text
has one round for the error that the parse ends with. If an error escapes, the parse has made full
rounds in the same order, and of the next one the visits up to the one that the error came out of. -/
theorem parse_calls_in_rounds (depth : Nat) (text : Text) (w : World) :
    let ended := (Work.parse (tellAt depth) text).run.run w
    let start := w.opened text
    let visits := World.visits depth w ended.2
    let escapes := World.escapes depth w ended.2
    let everyone := ended.2.parser.roster.everyone
    (escapes = [] → ∀ s, Sheet.parse? text = .ok s →
      ended.1 = .ok s ∧
      visits = rounds depth start (s.ruleNotices ++ [(.parseCompleted, .completed)]) ∧
      ∀ i place, i < s.rules.length →
        ((start.told depth (s.ruleNotices.take i)).parser.roster.of .ruleAdded).length ≤ place →
        place < ((start.told depth (s.ruleNotices.take (i + 1))).parser.roster.of .ruleAdded).length →
        heard .ruleAdded place visits = (s.rules.drop i).map .rule) ∧
    (escapes = [] → ∀ e, Sheet.parse? text = .error e →
      ended.1 = .error (.rejected e) ∧
      visits = everyone .errorFound (.error e.diagnostic.render)) ∧
    ∀ error ∈ escapes, ended.1 = .error error ∧ escapes = [error] ∧
      ∃ i n m, (Sheet.notices text)[i]? = some n ∧ 0 < m ∧ m ≤ (everyone n.1 n.2).length ∧
        visits = rounds depth start ((Sheet.notices text).take i) ++ (everyone n.1 n.2).take m ∧
        ∃ before c, World.direct depth w ended.2 = before ++ [.called c, .escaped depth error] := by
  rcases parse_rounds depth text w with
    ⟨hend, hrun, htells⟩ | ⟨error, i, n, m, hend, hi, hpos, hm, htells⟩
  · have hvisits := htells.visits
    have hescapes := htells.escapes
    simp only at hvisits hescapes
    simp only [hvisits, hescapes]
    refine ⟨fun _ s hs => ?_, fun _ e he => ?_, by simp⟩
    · have hns : Sheet.notices text = s.ruleNotices ++ [(.parseCompleted, .completed)] := by
        rw [Sheet.notices, hs]
      rw [hns] at hrun ⊢
      refine ⟨?_, rfl, fun i place hi hcame hthere => heard_late_rule hrun hi hcame hthere⟩
      rw [hend, Sheet.ending, hs]
    · have hns : Sheet.notices text = [(.errorFound, .error e.diagnostic.render)] := by
        rw [Sheet.notices, he]
      rw [hend, Sheet.ending, he, hns]
      exact ⟨rfl, List.append_nil _⟩
  · have hvisits := htells.visits
    have hescapes := htells.escapes
    simp only at hvisits hescapes
    simp only [hvisits, hescapes]
    refine ⟨by simp, by simp, fun error' h => ?_⟩
    obtain rfl : error' = error := by simpa using h
    exact ⟨hend, rfl, i, n, m, hi, hpos, hm, rfl, htells.last (broken_ne_nil hpos hm)⟩

end Work

end Stylesheet
