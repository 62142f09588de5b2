import Mathlib.Logic.Relation
import Stylesheet.Proofs.Law

/-!
# Moves

What can happen to a parser at work, move by move. Whatever listeners do, and however deep telling
nests, a run of the parser is a sequence of these moves. A property that every move keeps is kept by
every run.
-/

namespace Stylesheet

/-- One thing that happens to a parser, inside of at least `depth` calls. -/
inductive Move (depth : Nat) : World → World → Prop
  | log (entry : Entry) (w : World) : Move depth w (w.note (.logged entry))
  | call {w : World} {d place : Nat} {e : Event} {l : Listener} (notice : Notice) :
      depth ≤ d → (w.parser.roster.of e)[place]? = some l →
      Move depth w (w.note (.called ⟨d, e, place, l.id, notice, w.parser.sheet⟩))
  | escape {d : Nat} (error : Raised) (w : World) :
      depth ≤ d → Move depth w (w.note (.escaped d error))
  | look (id : Text) (w : World) : Move depth w (w.note (.seen id w.parser.sheet))
  | ask (id : Text) (w : World) : Move depth w (w.note (.shown id w.parser.sheet.text))
  | keep (id : Text) (kind : ErrorKind) (w : World) : Move depth w (w.note (.caught id kind))
  /-- A parse begins, up to the first listener that it tells. -/
  | parse (text : Text) (w : World) : Move depth w (w.opened text)
  | register (e : Event) (l : Listener) (w : World) : Move depth w (w.setRoster (·.add e l))
  | advance (e : Event) (place : Nat) (w : World) :
      Move depth w (w.setRoster (·.advance e place))

abbrev Moves (depth : Nat) : World → World → Prop := Relation.ReflTransGen (Move depth)

theorem Move.mono {d depth : Nat} (h : d ≤ depth) {w w' : World} (hw : Move depth w w') :
    Move d w w' := by
  cases hw with
  | log entry => exact .log entry w
  | call notice hd hl => exact .call notice (Nat.le_trans h hd) hl
  | escape error _ hd => exact .escape error w (Nat.le_trans h hd)
  | look id => exact .look id w
  | ask id => exact .ask id w
  | keep id kind => exact .keep id kind w
  | parse text => exact .parse text w
  | register e l => exact .register e l w
  | advance e place => exact .advance e place w

theorem Moves.mono {d depth : Nat} (h : d ≤ depth) {w w' : World} (hw : Moves depth w w') :
    Moves d w w' := Relation.ReflTransGen.mono (fun _ _ => Move.mono h) _ _ hw

theorem moves_noteAll (depth : Nat) (entries : List Entry) (w : World) :
    Moves depth w (w.noteAll (entries.map .logged)) := by
  induction entries generalizing w with
  | nil => exact .refl
  | cons entry entries ih =>
    refine .head (.log entry w) ?_
    have hrest := ih (w.note (.logged entry))
    simp only [World.noteAll, World.note, List.map_cons, List.reverse_cons, List.append_assoc,
      List.singleton_append] at hrest ⊢
    exact hrest

/-! ## Work in moves -/

namespace Work

variable {α β : Type} {depth d : Nat}

/-- All that the work does, it does in moves inside of at least `depth` calls. -/
def Within (depth : Nat) (x : Work α) : Prop := ∀ w, Moves depth w (x.run.run w).2

theorem Within.of_move {x : Work α} (h : ∀ w, Move depth w (x.run.run w).2) : x.Within depth :=
  fun w => .single (h w)

theorem within_pure (a : α) : (pure a : Work α).Within depth := fun _ => .refl

theorem within_throw (error : Raised) : (throw error : Work α).Within depth := fun _ => .refl

theorem Within.bind {x : Work α} {f : α → Work β} (hx : x.Within depth)
    (hf : ∀ a, (f a).Within depth) : (x >>= f).Within depth := by
  intro w
  have hw := hx w
  rw [run_bind]
  split
  · rename_i a w₁ h
    rw [h] at hw
    exact hw.trans (hf a w₁)
  · rename_i error w₁ h
    rwa [h] at hw

theorem Within.tryCatch {x : Work α} {f : Raised → Work α} (hx : x.Within depth)
    (hf : ∀ error, (f error).Within depth) : (tryCatch x f).Within depth := by
  intro w
  have hw := hx w
  rw [run_tryCatch]
  split
  · rename_i a w₁ h
    rwa [h] at hw
  · rename_i error w₁ h
    rw [h] at hw
    exact hw.trans (hf error w₁)

/-! ## Calls -/

section

variable {tell : Telling} {e : Event} {notice : Notice} {place : Nat} {w : World}

theorem call_run_of_none (h : (w.parser.roster.of e)[place]? = none) :
    (call tell depth e notice place).run.run w = (.ok (), w) := by
  unfold call
  rw [run_bind_of_ok (by rfl), h]
  rfl

/-- A listener's next call is fixed before it does anything. -/
theorem act_run (tell : Telling) (e : Event) (place : Nat) (l : Listener) (w : World) :
    (act tell e place l).run.run w =
      (perform tell l.id l.action).run.run (w.setRoster (·.advance e place)) := rfl

/-- A call is noted, and so is its end with an error. -/
theorem call_run {l : Listener} (h : (w.parser.roster.of e)[place]? = some l) :
    (call tell depth e notice place).run.run w =
      match (act tell e place l).run.run
          (w.note (.called ⟨depth, e, place, l.id, notice, w.parser.sheet⟩)) with
      | (.ok (), w₁) => (.ok (), w₁)
      | (.error error, w₁) => (.error error, w₁.note (.escaped depth error)) := by
  unfold call
  rw [run_bind_of_ok (by rfl), h]
  simp only []
  rw [run_bind_of_ok (by rfl), run_tryCatch]
  simp only [World.note]
  generalize (act tell e place l).run.run _ = ended
  obtain ⟨r, w₁⟩ := ended
  cases r <;> rfl

theorem within_act (hperform : ∀ id action, (perform tell id action).Within depth) (e : Event)
    (place : Nat) (l : Listener) : (act tell e place l).Within depth :=
  Within.bind (.of_move fun w => .advance e place w) fun _ => hperform l.id l.action

theorem within_call (hd : d ≤ depth) (hperform : ∀ id action, (perform tell id action).Within d)
    (e : Event) (notice : Notice) (place : Nat) : (call tell depth e notice place).Within d := by
  intro w
  cases hl : (w.parser.roster.of e)[place]? with
  | none =>
    rw [call_run_of_none hl]
  | some l =>
    have hcall : Moves d w (w.note (.called ⟨depth, e, place, l.id, notice, w.parser.sheet⟩)) :=
      .single (.call notice hd hl)
    have hact := within_act hperform e place l
      (w.note (.called ⟨depth, e, place, l.id, notice, w.parser.sheet⟩))
    rw [call_run hl]
    split
    · rename_i w₁ h
      rw [h] at hact
      exact hcall.trans hact
    · rename_i error w₁ h
      rw [h] at hact
      exact (hcall.trans hact).tail (.escape error w₁ hd)

end

theorem within_register (event : Text) (l : Listener) : (register event l).Within depth := by
  unfold register
  split
  · exact within_pure ()
  · rename_i e _
    exact Within.bind (.of_move fun w => .register e l w)
      fun _ => .of_move fun w => .log (.listenerRegistered event) w

theorem within_parse {tell : Telling} (text : Text)
    (htell : ∀ ns, (tellAll tell ns).Within depth) : (Work.parse tell text).Within depth := by
  intro w
  have htold := htell (Sheet.notices text) (w.opened text)
  have hopen : Moves depth w (w.opened text) := .single (.parse text w)
  rw [parse_run]
  split
  · rename_i w₁ h
    rw [h] at htold
    exact (hopen.trans htold).trans (moves_noteAll depth _ w₁)
  · rename_i error w₁ h
    rw [h] at htold
    exact hopen.trans htold

/-! ## All that a parser does -/

/-- Everything is done in moves, from inside of `depth` calls on. -/
def movesLaw (depth : Nat) : Law where
  Keeps _ x := x.Within depth
  floor := depth
  mono _ hx := hx
  ofPure := within_pure
  ofThrow := within_throw
  ofBind := Within.bind
  ofTryCatch := Within.tryCatch
  ofParser _ := .refl
  ofLog entry := .of_move fun w => .log entry w
  ofLook id := .of_move fun w => .look id w
  ofAsk id := .of_move fun w => .ask id w
  ofKeep id kind := .of_move fun w => .keep id kind w
  ofRegister := within_register
  ofParse := within_parse
  ofCall := within_call

theorem within_tellAt (depth : Nat) (e : Event) (notice : Notice) :
    (tellAt depth e notice).Within depth := (movesLaw depth).tellAt (Nat.le_refl depth) e notice

theorem within_tellAll (depth : Nat) (ns : List (Event × Notice)) :
    (tellAll (tellAt depth) ns).Within depth := (movesLaw depth).tellAll (within_tellAt depth) ns

/-! ## Visits and levels -/

theorem visit_run (tell : Telling) (depth : Nat) (e : Event) (notice : Notice) (w : World) :
    (visit tell depth e notice).run.run w =
      ((List.range ((w.parser.roster.of e).length + w.parser.roster.pending)).forM
        (call tell depth e notice)).run.run w := by
  unfold visit
  rw [run_bind_of_ok (by rfl)]

theorem tellAt_run (depth : Nat) (e : Event) (notice : Notice) (w : World) :
    (tellAt depth e notice).run.run w =
      (tellWithin (w.parser.roster.pending + 1) depth e notice).run.run w := by
  unfold tellAt
  rw [run_bind_of_ok (by rfl)]

end Work

end Stylesheet
