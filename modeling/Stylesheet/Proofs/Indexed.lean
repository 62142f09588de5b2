import Stylesheet.Proofs.Positions

/-!
# Reading by index

The productions once more, with no cursor: a position is looked at by its index, and each look can be
outside of the source. A loop takes turns, and each turn that reads something ends further on in the source.
Pure definitions first. Then reading by index is what the productions do.
-/

namespace Stylesheet

/-- The character at an index. An index below zero counts from the end, once. -/
def Text.at? (t : Text) (i : Int) : Option Char :=
  if 0 ≤ i then t[i.toNat]?
  else if 0 ≤ i + t.length then t[(i + t.length).toNat]? else none

/-! ## Loops -/

/-- What a turn of a loop did: it found the end, or it read something up to a position. -/
inductive Turn (α : Type)
  | done (last : Int)
  | read (a : α) (next : Int)

/-- A loop over a source, by its turns. -/
structure Loop (source : Text) (α : Type) where
  turn : Int → Except Stop (Turn α)
  /-- A turn that reads something ends further on, in the source. -/
  advances : ∀ {pos a next}, turn pos = .ok (.read a next) → pos < next ∧ next ≤ source.length
  /-- The end is not found before the turn. -/
  le_of_done : ∀ {pos last}, turn pos = .ok (.done last) → pos ≤ last

/-- What the turns from a position read, and where the end was found. -/
def Loop.run {source : Text} {α : Type} (l : Loop source α) (pos : Int) : Except Stop (List α × Int) :=
  match _h : l.turn pos with
  | .error stop => .error stop
  | .ok (.done last) => .ok ([], last)
  | .ok (.read a next) => do
    let (as, last) ← l.run next
    return (a :: as, last)
termination_by (source.length - pos).toNat
decreasing_by
  have := l.advances _h
  omega

theorem Loop.run_eq {source : Text} {α : Type} (l : Loop source α) (pos : Int) : l.run pos =
    l.turn pos >>= fun t => match t with
      | .done last => .ok ([], last)
      | .read a next => l.run next >>= fun x => .ok (a :: x.1, x.2) := by
  rw [run]
  split <;> rename_i h <;> rw [h] <;> rfl

theorem Loop.le_of_run {source : Text} {α : Type} (l : Loop source α) {pos last : Int} {as : List α}
    (h : l.run pos = .ok (as, last)) : pos ≤ last := by
  fun_induction Loop.run l pos generalizing as with
  | case1 pos stop => cases h
  | case2 pos stop hturn =>
    cases h
    exact l.le_of_done hturn
  | case3 pos a next hturn ih =>
    obtain ⟨⟨as', last'⟩, hrun, h⟩ := bind_eq_ok.mp h
    cases h
    have := l.advances hturn
    have := ih hrun
    omega

namespace Indexed

variable (source : Text)

/-! ## Tokens -/

def charAt (i : Int) : Except Stop Char :=
  match source.at? i with
  | some c => .ok c
  | none => .error .outside

def reject {α : Type} (f : Failure) : Except Stop α := .error (.rejected (f.error source))

/-- The first position from `pos` on that has no character passing a test. -/
def runEnd (test : Char → Bool) (pos : Int) : Except Stop Int :=
  if pos < source.length then do
    if test (← charAt source pos) then runEnd test (pos + 1) else return pos
  else return pos
termination_by (source.length - pos).toNat

def blanks (pos : Int) : Except Stop Int := runEnd source isBlank pos

def mark (pos : Int) (m : Text) : Except Stop Int :=
  if pos < source.length then do
    if m = [← charAt source pos] then return pos + 1 else reject source ⟨.missingMark m, pos⟩
  else reject source ⟨.missingMark m, pos⟩

def word (pos : Int) : Except Stop (Span × Int) := do
  let stop ← runEnd source isLetter pos
  if stop = pos then reject source ⟨.missingWord, pos⟩ else return (⟨source, pos, stop⟩, stop)

/-! ## Productions -/

def declaration (pos : Int) : Except Stop (Declaration × Int) := do
  let (name, p₁) ← word source (← blanks source pos)
  let p₂ ← mark source (← blanks source p₁) [':']
  match PropertyKind.ofName? name.text with
  | none => reject source ⟨.unknownProperty name.text, pos⟩
  | some kind =>
    let (value, p₃) ← word source (← blanks source p₂)
    let p₄ ← mark source (← blanks source p₃) [';']
    return (⟨kind, value⟩, p₄)

/-- A turn of the loop over a block. -/
def blockTurn (pos : Int) : Except Stop (Turn Declaration) := do
  let pos ← blanks source pos
  if pos < source.length then
    if (← charAt source pos) = '}' then return .done pos
    else
      let (d, next) ← declaration source pos
      return .read d next
  else return .done pos

variable {source} {pos q : Int}

/-! ## Moving on -/

theorem bounds_of_runEnd {test : Char → Bool} (h : runEnd source test pos = .ok q) :
    pos ≤ q ∧ (q ≤ source.length ∨ q = pos) := by
  fun_induction runEnd source test pos with
  | case1 pos hlt ih =>
    obtain ⟨c, -, h⟩ := bind_eq_ok.mp h
    split at h
    · have := ih h
      omega
    · cases h
      omega
  | case2 pos hlt =>
    cases h
    omega

theorem bounds_of_blanks (h : blanks source pos = .ok q) :
    pos ≤ q ∧ (q ≤ source.length ∨ q = pos) := bounds_of_runEnd h

theorem bounds_of_mark {m : Text} (h : mark source pos m = .ok q) :
    pos < q ∧ q ≤ source.length := by
  unfold mark at h
  split at h
  · obtain ⟨c, -, h⟩ := bind_eq_ok.mp h
    split at h <;> cases h
    omega
  · cases h

theorem bounds_of_word {s : Span} (h : word source pos = .ok (s, q)) :
    pos < q ∧ q ≤ source.length := by
  obtain ⟨stop, hstop, h⟩ := bind_eq_ok.mp h
  have := bounds_of_runEnd hstop
  split at h
  · cases h
  · cases h
    omega

theorem bounds_of_declaration {d : Declaration} (h : declaration source pos = .ok (d, q)) :
    pos < q ∧ q ≤ source.length := by
  obtain ⟨p₀, h₀, h⟩ := bind_eq_ok.mp h
  obtain ⟨⟨name, p₁⟩, h₁, h⟩ := bind_eq_ok.mp h
  obtain ⟨p₂, h₂, h⟩ := bind_eq_ok.mp h
  obtain ⟨p₃, h₃, h⟩ := bind_eq_ok.mp h
  have := bounds_of_blanks h₀
  have := bounds_of_word h₁
  have := bounds_of_blanks h₂
  have := bounds_of_mark h₃
  cases hkind : PropertyKind.ofName? name.text with
  | none =>
    simp only [hkind] at h
    cases h
  | some kind =>
    simp only [hkind] at h
    obtain ⟨p₄, h₄, h⟩ := bind_eq_ok.mp h
    obtain ⟨⟨value, p₅⟩, h₅, h⟩ := bind_eq_ok.mp h
    obtain ⟨p₆, h₆, h⟩ := bind_eq_ok.mp h
    obtain ⟨p₇, h₇, h⟩ := bind_eq_ok.mp h
    cases h
    have := bounds_of_blanks h₄
    have := bounds_of_word h₅
    have := bounds_of_blanks h₆
    have := bounds_of_mark h₇
    omega

theorem blockTurn_cases {t : Turn Declaration} (h : blockTurn source pos = .ok t) :
    ∃ p, blanks source pos = .ok p ∧
      (t = .done p ∨ ∃ d next, declaration source p = .ok (d, next) ∧ t = .read d next) := by
  obtain ⟨p, hp, h⟩ := bind_eq_ok.mp h
  refine ⟨p, hp, ?_⟩
  split at h
  · obtain ⟨c, -, h⟩ := bind_eq_ok.mp h
    split at h
    · cases h
      exact .inl rfl
    · obtain ⟨⟨d, next⟩, hd, h⟩ := bind_eq_ok.mp h
      cases h
      exact .inr ⟨d, next, hd, rfl⟩
  · cases h
    exact .inl rfl

/-! ## Rules and sheets -/

variable (source)

def block : Loop source Declaration where
  turn := blockTurn source
  advances h := by
    obtain ⟨p, hp, hdone | ⟨d, next, hd, hread⟩⟩ := blockTurn_cases h
    · cases hdone
    · cases hread
      have := bounds_of_blanks hp
      have := bounds_of_declaration hd
      omega
  le_of_done h := by
    obtain ⟨p, hp, hdone | ⟨d, next, hd, hread⟩⟩ := blockTurn_cases h
    · cases hdone
      exact (bounds_of_blanks hp).1
    · cases hread

def rule (pos : Int) : Except Stop (Rule × Int) := do
  let (selector, p₁) ← word source (← blanks source pos)
  let p₂ ← mark source (← blanks source p₁) ['{']
  let (ds, p₃) ← (block source).run p₂
  let p₄ ← mark source (← blanks source p₃) ['}']
  return (⟨selector, ds⟩, p₄)

variable {source}

theorem bounds_of_rule {r : Rule} (h : rule source pos = .ok (r, q)) :
    pos < q ∧ q ≤ source.length := by
  obtain ⟨p₀, h₀, h⟩ := bind_eq_ok.mp h
  obtain ⟨⟨selector, p₁⟩, h₁, h⟩ := bind_eq_ok.mp h
  obtain ⟨p₂, h₂, h⟩ := bind_eq_ok.mp h
  obtain ⟨p₃, h₃, h⟩ := bind_eq_ok.mp h
  obtain ⟨⟨ds, p₄⟩, h₄, h⟩ := bind_eq_ok.mp h
  obtain ⟨p₅, h₅, h⟩ := bind_eq_ok.mp h
  obtain ⟨p₆, h₆, h⟩ := bind_eq_ok.mp h
  cases h
  have := bounds_of_blanks h₀
  have := bounds_of_word h₁
  have := bounds_of_blanks h₂
  have := bounds_of_mark h₃
  have := (block source).le_of_run h₄
  have := bounds_of_blanks h₅
  have := bounds_of_mark h₆
  omega

variable (source)

/-- A turn of the loop over a sheet. -/
def sheetTurn (pos : Int) : Except Stop (Turn Rule) :=
  if pos < source.length then do
    let (r, next) ← rule source pos
    return .read r (← blanks source next)
  else return .done pos

def rules : Loop source Rule where
  turn := sheetTurn source
  advances h := by
    unfold sheetTurn at h
    split at h
    · obtain ⟨⟨r, p⟩, hr, h⟩ := bind_eq_ok.mp h
      obtain ⟨next, hnext, h⟩ := bind_eq_ok.mp h
      cases h
      have := bounds_of_rule hr
      have := bounds_of_blanks hnext
      omega
    · cases h
  le_of_done h := by
    unfold sheetTurn at h
    split at h
    · obtain ⟨⟨r, p⟩, hr, h⟩ := bind_eq_ok.mp h
      obtain ⟨next, hnext, h⟩ := bind_eq_ok.mp h
      cases h
    · cases h
      exact Int.le_refl _

def sheet : Except Stop Sheet := do
  let (rs, _) ← (rules source).run (← blanks source 0)
  return ⟨rs⟩

end Indexed

end Stylesheet
