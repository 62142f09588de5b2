import Stylesheet.Proofs.Work

/-!
# Laws of work

A law says what work may do, and how many deeds it may use up. Where the steps of a parser keep a law,
everything that a parser and its listeners do keeps it, however deep telling nests: a call uses up no
more than the deeds of its turn, and telling nothing beyond what calls have used up already.
-/

namespace Stylesheet

/-- The deeds of an action's next call, those of the listeners it registers included. -/
def Action.turn : Action → Nat
  | always _ => 0
  | perform _ next => next.turn + 1
  | enlist _ _ action next => action.size + next.turn + 1
  | pause _ => 0

namespace Work

/-- What holds of each step of a parser, as a property of work. -/
structure Law where
  /-- The work keeps the law and uses up no more than `n` deeds. -/
  Keeps : {α : Type} → (n : Nat) → Work α → Prop
  /-- Calls keep the law from inside of so many calls on. -/
  floor : Nat
  mono : ∀ {α : Type} {m n : Nat} {x : Work α}, m ≤ n → Keeps m x → Keeps n x
  ofPure : ∀ {α : Type} (a : α), Keeps 0 (pure a)
  ofThrow : ∀ {α : Type} (error : Raised), Keeps 0 (throw error : Work α)
  ofBind : ∀ {α β : Type} {m n : Nat} {x : Work α} {f : α → Work β},
    Keeps m x → (∀ a, Keeps n (f a)) → Keeps (m + n) (x >>= f)
  ofTryCatch : ∀ {α : Type} {n : Nat} {x : Work α} {f : Raised → Work α},
    Keeps n x → (∀ error, Keeps 0 (f error)) → Keeps n (tryCatch x f)
  ofParser : Keeps 0 parser
  ofLog : ∀ entry, Keeps 0 (log entry)
  ofLook : ∀ id, Keeps 0 (do note (.seen id (← parser).sheet))
  ofAsk : ∀ id, Keeps 0 (do note (.shown id (← parser).sheet.text))
  ofKeep : ∀ id kind, Keeps 0 (note (.caught id kind))
  ofRegister : ∀ event (l : Listener), Keeps (l.action.size + 1) (register event l)
  ofParse : ∀ {tell : Telling} (text : Text),
    (∀ ns, Keeps 0 (tellAll tell ns)) → Keeps 0 (Work.parse tell text)
  ofCall : ∀ {tell : Telling} {depth : Nat}, floor ≤ depth →
    (∀ id action, Keeps action.turn (perform tell id action)) →
    ∀ e notice place, Keeps 0 (call tell depth e notice place)

namespace Law

variable {α : Type} (law : Law)

theorem forM {as : List α} {f : α → Work Unit} (hf : ∀ a, law.Keeps 0 (f a)) :
    law.Keeps 0 (as.forM f) := by
  induction as with
  | nil => exact law.ofPure ()
  | cons a as ih => exact law.ofBind (hf a) fun _ => ih

section

variable {tell : Telling} (htell : ∀ e notice, law.Keeps 0 (tell e notice))
include htell

theorem tellAll (ns : List (Event × Notice)) : law.Keeps 0 (tellAll tell ns) :=
  law.forM fun n => htell n.1 n.2

theorem report (text : Text) : law.Keeps 0 (report tell text) :=
  law.ofBind (law.ofLog _) fun _ => htell _ _

theorem parse (text : Text) : law.Keeps 0 (Work.parse tell text) :=
  law.ofParse text (law.tellAll htell)

theorem doDeed (id : Text) (deed : Deed) : law.Keeps 1 (doDeed tell id deed) := by
  have hparse : ∀ text, law.Keeps 0 (do let _ ← Work.parse tell text : Work Unit) :=
    fun text => law.ofBind (law.parse htell text) fun _ => law.ofPure ()
  induction deed with
  | look => exact law.mono (Nat.zero_le 1) (law.ofLook id)
  | raise error => exact law.mono (Nat.zero_le 1) (law.ofThrow error)
  | register event => exact law.ofRegister event ⟨id ++ ['+'], .record⟩
  | report text => exact law.mono (Nat.zero_le 1) (law.report htell text)
  | parse text catching =>
    refine law.mono (Nat.zero_le 1) ?_
    cases catching with
    | false => exact hparse text
    | true =>
      refine law.ofTryCatch (hparse text) fun error => ?_
      cases error with
      | rejected e => exact law.ofKeep id e.kind
      | byListener other => exact law.ofThrow _
  | quietly deed ih => exact law.ofTryCatch ih fun _ => law.ofPure ()

theorem perform (id : Text) (action : Action) :
    law.Keeps action.turn (perform tell id action) := by
  induction action with
  | always habit =>
    cases habit with
    | record => exact law.ofPure ()
    | look => exact law.ofAsk id
    | raise => exact law.ofThrow _
  | perform deed next ih =>
    refine law.mono ?_ (law.ofBind (law.doDeed htell id deed) fun _ => ih)
    simp only [Action.turn]
    omega
  | enlist event suffix action next _ ih =>
    refine law.mono ?_ (law.ofBind (law.ofRegister event _) fun _ => ih)
    simp only [Action.turn]
    omega
  | pause next => exact law.ofPure ()

variable {depth : Nat} (hdepth : law.floor ≤ depth)
include hdepth

theorem call (e : Event) (notice : Notice) (place : Nat) :
    law.Keeps 0 (call tell depth e notice place) :=
  law.ofCall hdepth (law.perform htell) e notice place

theorem visit (e : Event) (notice : Notice) : law.Keeps 0 (visit tell depth e notice) :=
  law.ofBind law.ofParser fun _ => law.forM (law.call htell hdepth e notice)

end

theorem tellWithin (levels : Nat) {depth : Nat} (hdepth : law.floor ≤ depth) (e : Event)
    (notice : Notice) : law.Keeps 0 (tellWithin levels depth e notice) := by
  induction levels generalizing depth e notice with
  | zero => exact law.ofPure ()
  | succ levels ih => exact law.visit (ih (Nat.le_succ_of_le hdepth)) hdepth e notice

theorem tellAt {depth : Nat} (hdepth : law.floor ≤ depth) (e : Event) (notice : Notice) :
    law.Keeps 0 (tellAt depth e notice) :=
  law.ofBind law.ofParser fun _ => law.tellWithin _ hdepth e notice

end Law

end Work

end Stylesheet
