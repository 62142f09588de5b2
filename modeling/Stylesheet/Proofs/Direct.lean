import Stylesheet.Proofs.Nesting

/-!
# Direct calls

Of all that happens while a parser tells an event, these are the calls that it makes itself, and the
errors that come out of them. Calls that listeners cause lie further inside.
-/

namespace Stylesheet

/-- How many calls were under way around a call, or around its end with an error. -/
def Moment.depth? : Moment → Option Nat
  | .called c => some c.depth
  | .escaped depth _ => some depth
  | _ => none

namespace World

variable {depth d : Nat} {w w₁ w₂ w' : World}

/-- The calls made between two worlds from inside of `depth` calls, in order, and the errors that came
out of them. -/
def direct (depth : Nat) (w w' : World) : List Moment :=
  (w'.moments.drop w.moments.length).filter (·.depth? = some depth)

theorem direct_eq {ms : List Moment} (h : w'.moments = w.moments ++ ms) :
    direct depth w w' = ms.filter (·.depth? = some depth) := by
  rw [direct, h, List.drop_left]

theorem moments_note (w : World) (m : Moment) : (w.note m).moments = w.moments ++ [m] := by
  simp [note, moments]

theorem moments_opened (w : World) (text : Text) :
    (w.opened text).moments = w.moments ++ .began text :: (Sheet.opening text).map .logged := by
  simp [opened, moments]

theorem direct_note (w : World) (m : Moment) :
    direct depth w (w.note m) = [m].filter (·.depth? = some depth) := direct_eq (moments_note w m)

end World

/-! ## Histories grow -/

variable {depth d : Nat} {w w₁ w₂ w' : World}

/-- Moments are only added, and calls only at this depth and further inside. -/
theorem Move.moments (h : Move depth w w') :
    ∃ ms, w'.moments = w.moments ++ ms ∧ ∀ m ∈ ms, ∀ d ∈ m.depth?, depth ≤ d := by
  cases h with
  | log | look | ask | keep =>
    exact ⟨_, World.moments_note w _, by simp [Moment.depth?]⟩
  | call notice hd | escape error _ hd =>
    exact ⟨_, World.moments_note w _, by simpa [Moment.depth?] using hd⟩
  | parse text => exact ⟨_, World.moments_opened w text, by simp [Moment.depth?]⟩
  | register | advance => exact ⟨[], by simp [World.moments, World.setRoster], by simp⟩

theorem Moves.moments (h : Moves depth w w') :
    ∃ ms, w'.moments = w.moments ++ ms ∧ ∀ m ∈ ms, ∀ d ∈ m.depth?, depth ≤ d := by
  induction h with
  | refl => exact ⟨[], by simp, by simp⟩
  | tail _ hmove ih =>
    obtain ⟨ms, hms, hdepth⟩ := ih
    obtain ⟨ms', hms', hdepth'⟩ := hmove.moments
    refine ⟨ms ++ ms', by rw [hms', hms, List.append_assoc], fun m hm => ?_⟩
    rcases List.mem_append.mp hm with hm | hm
    · exact hdepth m hm
    · exact hdepth' m hm

theorem Moves.direct_inside (h : Moves (depth + 1) w w') : World.direct depth w w' = [] := by
  obtain ⟨ms, hms, hdepth⟩ := h.moments
  rw [World.direct_eq hms, List.filter_eq_nil_iff]
  intro m hm hdirect
  have := hdepth m hm depth (by simpa using hdirect)
  omega

theorem Moves.direct_trans (h₁ : Moves d w w₁) (h₂ : Moves d w₁ w₂) :
    World.direct depth w w₂ = World.direct depth w w₁ ++ World.direct depth w₁ w₂ := by
  obtain ⟨ms₁, hms₁, -⟩ := h₁.moments
  obtain ⟨ms₂, hms₂, -⟩ := h₂.moments
  have hms : w₂.moments = w.moments ++ (ms₁ ++ ms₂) := by rw [hms₂, hms₁, List.append_assoc]
  rw [World.direct_eq hms, World.direct_eq hms₁, World.direct_eq hms₂, List.filter_append]

/-! ## Rosters grow -/

/-- The ids of an event's listeners, by place. -/
def Roster.ids (r : Roster) (e : Event) : List Text := (r.of e).map (·.id)

theorem Roster.ids_advance (r : Roster) (e e' : Event) (place : Nat) :
    (r.advance e place).ids e' = r.ids e' := by
  rw [ids, of_advance]
  split
  · rename_i h
    rw [ids, h]
    apply List.ext_getElem?
    intro i
    rw [List.getElem?_map, List.getElem?_modify, List.getElem?_map]
    split <;> cases (r.of e)[i]? <;> rfl
  · rfl

/-- Listeners keep their places, and new ones come behind them. -/
theorem Move.ids (h : Move depth w w') (e : Event) :
    w.parser.roster.ids e <+: w'.parser.roster.ids e := by
  cases h with
  | register e' l =>
    rw [World.setRoster, Roster.ids, Roster.ids, Roster.of_add]
    split
    · rename_i he
      rw [he, List.map_append]
      exact List.prefix_append _ _
    · exact List.prefix_rfl
  | advance e' place =>
    simpa only [World.setRoster, Roster.ids_advance] using List.prefix_rfl
  | log | call | escape | look | ask | keep | parse => exact List.prefix_rfl

theorem Moves.ids (h : Moves depth w w') (e : Event) :
    w.parser.roster.ids e <+: w'.parser.roster.ids e := by
  induction h with
  | refl => exact List.prefix_rfl
  | tail _ hmove ih => exact ih.trans (hmove.ids e)

/-! ## Visits -/

/-- A listener, by its place and id, is told of an event. -/
structure Visit where
  event : Event
  place : Nat
  id : Text
  notice : Notice
deriving DecidableEq

def Call.visit (c : Call) : Visit := ⟨c.event, c.place, c.id, c.notice⟩

/-- Every listener of an event is told of it once, in the order of registration. -/
def Roster.everyone (r : Roster) (e : Event) (notice : Notice) : List Visit :=
  (r.ids e).zipIdx.map fun l => ⟨e, l.2, l.1, notice⟩

theorem Roster.length_everyone (r : Roster) (e : Event) (notice : Notice) :
    (r.everyone e notice).length = (r.of e).length := by
  simp [everyone, ids]

theorem Moves.everyone_at (h : Moves depth w w') {e : Event} {place : Nat} {l : Listener}
    (hl : (w.parser.roster.of e)[place]? = some l) (notice : Notice) :
    (w'.parser.roster.everyone e notice)[place]? = some ⟨e, place, l.id, notice⟩ := by
  have hid : (w.parser.roster.ids e)[place]? = some l.id := by simp [Roster.ids, hl]
  obtain ⟨hplace, hid⟩ := List.getElem?_eq_some_iff.mp hid
  have hlater := List.prefix_iff_getElem?.mp (h.ids e) place hplace
  simp [Roster.everyone, hlater, hid]

theorem Moves.length_of (h : Moves depth w w') (e : Event) :
    (w.parser.roster.of e).length ≤ (w'.parser.roster.of e).length := by
  simpa [Roster.ids] using (h.ids e).length_le

def World.visits (depth : Nat) (w w' : World) : List Visit :=
  (direct depth w w').filterMap fun
    | .called c => some c.visit
    | _ => none

/-- The errors that direct calls let escape between two worlds. -/
def World.escapes (depth : Nat) (w w' : World) : List Raised :=
  (direct depth w w').filterMap fun
    | .escaped _ error => some error
    | _ => none

/-! ## Runs that tell -/

/-- The end of a run with an error, as a moment of its history. -/
def escape (depth : Nat) : Except Raised Unit → List Moment
  | .ok () => []
  | .error error => [.escaped depth error]

/-- The direct calls of a run are these visits. Behind the last one stands the error, if the run ended
with one. -/
def Tells (depth : Nat) (w : World) (ended : Except Raised Unit × World) (vs : List Visit) : Prop :=
  ∃ cs : List Call, cs.map Call.visit = vs ∧
    World.direct depth w ended.2 = cs.map .called ++ escape depth ended.1

theorem Tells.visits {ended : Except Raised Unit × World} {vs : List Visit}
    (h : Tells depth w ended vs) : World.visits depth w ended.2 = vs := by
  obtain ⟨cs, rfl, hcs⟩ := h
  rw [World.visits, hcs, List.filterMap_append, List.filterMap_map]
  have hescape : ∀ r, (escape depth r).filterMap (fun
      | .called c => some c.visit
      | _ => none) = [] := by
    rintro (error | ⟨⟩) <;> rfl
  rw [hescape, List.append_nil, ← List.filterMap_eq_map]
  rfl

theorem Tells.escapes {ended : Except Raised Unit × World} {vs : List Visit}
    (h : Tells depth w ended vs) :
    World.escapes depth w ended.2 =
      match ended.1 with
      | .ok () => []
      | .error error => [error] := by
  obtain ⟨cs, rfl, hcs⟩ := h
  rw [World.escapes, hcs, List.filterMap_append, List.filterMap_map]
  have hcalls : cs.filterMap ((fun
      | .escaped _ error => some error
      | _ => none) ∘ Moment.called) = [] := by
    simp
  rw [hcalls, List.nil_append]
  cases ended.1 <;> rfl

theorem tells_inside (h : Moves (depth + 1) w w') : Tells depth w (.ok (), w') [] :=
  ⟨[], rfl, h.direct_inside⟩

theorem tells_nil (w : World) : Tells depth w (.ok (), w) [] := tells_inside .refl

theorem Tells.trans {ended : Except Raised Unit × World} {vs vs' : List Visit}
    (h₁ : Tells depth w (.ok (), w₁) vs) (h₂ : Tells depth w₁ ended vs')
    (hw₁ : Moves depth w w₁) (hw₂ : Moves depth w₁ ended.2) : Tells depth w ended (vs ++ vs') := by
  obtain ⟨cs, rfl, hcs⟩ := h₁
  obtain ⟨cs', rfl, hcs'⟩ := h₂
  refine ⟨cs ++ cs', List.map_append, ?_⟩
  rw [hw₁.direct_trans hw₂, hcs, hcs', escape, List.append_nil, List.map_append, List.append_assoc]

/-- A run that ended with an error, after it had told something, did so in its last call. -/
theorem Tells.last {error : Raised} {vs : List Visit} (h : Tells depth w (.error error, w') vs)
    (hvs : vs ≠ []) :
    ∃ before c, World.direct depth w w' = before ++ [.called c, .escaped depth error] := by
  obtain ⟨cs, rfl, hcs⟩ := h
  rcases List.eq_nil_or_concat cs with rfl | ⟨before, c, rfl⟩
  · exact absurd rfl hvs
  · exact ⟨before.map .called, c, by simp [hcs, escape]⟩

theorem tells_call {e : Event} {place : Nat} {l : Listener} (notice : Notice)
    (h : (w.parser.roster.of e)[place]? = some l) :
    Tells depth w ((Work.call (Work.tellAt (depth + 1)) depth e notice place).run.run w)
      [⟨e, place, l.id, notice⟩] := by
  let c : Call := ⟨depth, e, place, l.id, notice, w.parser.sheet⟩
  -- What the listener does lies one call further inside, so the call itself is all that is direct.
  have hcall : Moves depth w (w.note (.called c)) := .single (.call notice (Nat.le_refl depth) h)
  have hact : Moves (depth + 1) (w.note (.called c)) _ :=
    Work.within_act ((Work.movesLaw (depth + 1)).perform (Work.within_tellAt (depth + 1))) e place l _
  have hboth : ∀ {w₁}, Moves (depth + 1) (w.note (.called c)) w₁ →
      World.direct depth w w₁ = [.called c] := fun hact => by
    rw [hcall.direct_trans (hact.mono (Nat.le_succ depth)), hact.direct_inside, World.direct_note]
    simp [c, Moment.depth?]
  refine ⟨[c], rfl, ?_⟩
  rw [Work.call_run h]
  split
  · rename_i w₁ hrun
    rw [hrun] at hact
    exact hboth hact
  · rename_i error w₁ hrun
    rw [hrun] at hact
    have hraised : Moves depth w w₁ := hcall.trans (hact.mono (Nat.le_succ depth))
    have hescape : Moves depth w₁ (w₁.note (.escaped depth error)) :=
      .single (.escape error w₁ (Nat.le_refl depth))
    rw [hraised.direct_trans hescape, hboth hact, World.direct_note]
    simp [Moment.depth?, escape]

end Stylesheet
