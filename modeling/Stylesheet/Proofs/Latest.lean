import Stylesheet.Proofs.Moves

/-!
# The latest sheet

A parser's sheet is the outcome of the parse that began last, and every look at the sheet shows it.
This holds at every moment of every run, inside of listeners and after errors too.
-/

namespace Stylesheet

/-! ## Faithful worlds -/

/-- The outcome of the parse that began last in a history, which has its newest moment first. Before
the first parse it is the sheet that was there. -/
def latest (s : Sheet) : List Moment → Sheet
  | [] => s
  | .began text :: _ => Sheet.outcome text
  | _ :: ms => latest s ms

/-- A look at the sheet shows this one. All other moments show nothing. -/
def Moment.Shows (s : Sheet) : Moment → Prop
  | .called c => c.sheet = s
  | .seen _ sheet => sheet = s
  | .shown _ text => text = s.text
  | _ => True

/-- The sheet is the latest one, and every look has shown the one that was the latest then. -/
structure World.Faithful (s : Sheet) (w : World) : Prop where
  sheet : w.parser.sheet = latest s w.history
  looks : ∀ later m earlier, w.history = later ++ m :: earlier → m.Shows (latest s earlier)

variable {s : Sheet} {w w' : World}

theorem latest_append (s : Sheet) (ms earlier : List Moment) :
    latest s (ms ++ earlier) = latest (latest s earlier) ms := by
  induction ms with
  | nil => rfl
  | cons m ms ih =>
    cases m with
    | began text => rfl
    | logged | called | escaped | seen | shown | caught => exact ih

theorem latest_logged (s : Sheet) (entries : List Entry) :
    latest s ((entries.map .logged).reverse) = s := by
  induction entries with
  | nil => rfl
  | cons entry entries ih =>
    rw [List.map_cons, List.reverse_cons, latest_append]
    exact ih

theorem looks_cons {m : Moment} {history : List Moment} (hm : m.Shows (latest s history))
    (h : ∀ later m earlier, history = later ++ m :: earlier → m.Shows (latest s earlier)) :
    ∀ later m' earlier, m :: history = later ++ m' :: earlier → m'.Shows (latest s earlier) := by
  intro later m' earlier heq
  cases later with
  | nil =>
    cases heq
    exact hm
  | cons x later =>
    rw [List.cons_append, List.cons.injEq] at heq
    exact h later m' earlier heq.2

theorem looks_logged {history : List Moment} (entries : List Entry)
    (h : ∀ later m earlier, history = later ++ m :: earlier → m.Shows (latest s earlier)) :
    ∀ later m earlier, (entries.map .logged).reverse ++ history = later ++ m :: earlier →
      m.Shows (latest s earlier) := by
  induction entries generalizing history with
  | nil => exact h
  | cons entry entries ih =>
    rw [List.map_cons, List.reverse_cons, List.append_assoc, List.singleton_append]
    exact ih (looks_cons trivial h)

/-! ## Moves -/

/-- A moment that shows the latest sheet, and is not the beginning of a parse, keeps a world faithful. -/
theorem World.Faithful.note {m : Moment} (hw : w.Faithful s) (hm : m.Shows w.parser.sheet)
    (hlatest : latest s (m :: w.history) = latest s w.history) : (w.note m).Faithful s where
  sheet := hw.sheet.trans hlatest.symm
  looks := by
    rw [hw.sheet] at hm
    exact looks_cons hm hw.looks

theorem World.Faithful.move {depth : Nat} (hw : w.Faithful s) (h : Move depth w w') :
    w'.Faithful s := by
  cases h with
  | log | escape | keep => exact hw.note trivial rfl
  | call | look | ask => exact hw.note rfl rfl
  | register | advance => exact ⟨hw.sheet, hw.looks⟩
  | parse text =>
    refine ⟨?_, looks_logged _ (looks_cons trivial hw.looks)⟩
    rw [World.opened, latest_append, latest_logged]
    rfl

theorem World.Faithful.moves {depth : Nat} (hw : w.Faithful s) (h : Moves depth w w') :
    w'.Faithful s := by
  induction h with
  | refl => exact hw
  | tail _ hmove ih => exact ih.move hmove

/-! ## Runs -/

inductive Request
  | register (event : Text) (l : Listener)
  | report (text : Text)
  | parse (text : Text)

namespace Parser

/-- The parser after a request, with the moments of the request. -/
def serve (p : Parser) : Request → World
  | .register event l => p.register event l
  | .report text => (p.report text).2
  | .parse text => (p.parse text).2

/-- The parser after one request after another, with the moments of them all. -/
def serveAll (p : Parser) : List Request → World
  | [] => ⟨p, []⟩
  | r :: rs =>
    let w := p.serve r
    let w' := w.parser.serveAll rs
    ⟨w'.parser, w'.history ++ w.history⟩

theorem moves_serve (p : Parser) (r : Request) : Moves 0 ⟨p, []⟩ (p.serve r) := by
  cases r with
  | register event l => exact Work.within_register event l ⟨p, []⟩
  | report text => exact (Work.movesLaw 0).report (Work.within_tellAt 0) text ⟨p, []⟩
  | parse text => exact (Work.movesLaw 0).parse (Work.within_tellAt 0) text ⟨p, []⟩

/-- Requests one after another, seen from the sheet before the first one. -/
theorem faithful_serveAll (p : Parser) (rs : List Request) :
    (p.serveAll rs).Faithful p.sheet := by
  induction rs generalizing p with
  | nil => exact ⟨rfl, by simp [serveAll]⟩
  | cons r rs ih =>
    have hfirst : (p.serve r).Faithful p.sheet :=
      World.Faithful.moves ⟨rfl, by simp⟩ (moves_serve p r)
    have hrest := ih (p.serve r).parser
    rw [hfirst.sheet] at hrest
    refine ⟨?_, ?_⟩
    · rw [serveAll, latest_append]
      exact hrest.sheet
    · intro later m earlier heq
      rcases List.append_eq_append_iff.mp heq with ⟨ms, hlater, hfirst'⟩ | ⟨ms, hhistory, hms⟩
      · exact hfirst.looks ms m earlier hfirst'
      · cases ms with
        | nil => exact hfirst.looks [] m earlier hms.symm
        | cons x ms =>
          rw [List.cons_append, List.cons.injEq] at hms
          obtain ⟨rfl, rfl⟩ := hms
          rw [latest_append]
          exact hrest.looks later m ms hhistory

/-- Whatever was asked of a parser, and whatever its listeners did, its sheet is the outcome of the
parse that began last, nested ones included, and it was so at every moment at which a listener looked
at it: when it was called, and whenever it looked or asked for the text of the sheet. The outcome of a
rejected text is the empty sheet, and so is the sheet before the first parse. -/
theorem sheet_eq_latest (requests : List Request) :
    (fresh.serveAll requests).parser.sheet = latest .empty (fresh.serveAll requests).history ∧
    ∀ later m earlier, (fresh.serveAll requests).history = later ++ m :: earlier →
      m.Shows (latest .empty earlier) :=
  have h := faithful_serveAll fresh requests
  ⟨h.sheet, h.looks⟩

end Parser

end Stylesheet
