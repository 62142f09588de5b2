import Stylesheet.Text.Quoted

/-!
# Tokens of a settings file

The tokens keep every character of the text, so that a text can be put together again from its tokens.
A quoted string is one token that also says what it means.
-/

namespace Stylesheet.Toml

inductive Token
  /-- Spaces and tabs. -/
  | blank (written : Text)
  /-- A comment, without the end of its line. -/
  | comment (written : Text)
  | newline
  /-- A character with a meaning of its own. -/
  | mark (c : Char)
  /-- A bare key, a number or a truth value. -/
  | word (written : Text)
  | quoted (written : Text) (meaning : Text)
deriving DecidableEq

namespace Token

def written : Token → Text
  | blank w => w
  | comment w => w
  | newline => ['\n']
  | mark c => [c]
  | word w => w
  | quoted w _ => w

/-! ## Characters -/

def marks : List Char := ['[', ']', '{', '}', ',', '.', '=']

def isBlank (c : Char) : Bool := c == ' ' || c == '\t'

/-- The characters of bare keys. -/
def isKeyChar (c : Char) : Bool := c.isAlphanum || c == '_' || c == '-'

/-- The characters of words. A sign makes a word that is no key. -/
def isWordChar (c : Char) : Bool := isKeyChar c || c == '+'

/-- The characters that may not stand in a string as they are. -/
def isControl (c : Char) : Bool := (c.toNat < 0x20 && c != '\t') || c.toNat == 0x7f

/-! ## Strings -/

def hexDigit? (c : Char) : Option Nat :=
  if '0' ≤ c ∧ c ≤ '9' then some (c.toNat - '0'.toNat)
  else if 'a' ≤ c ∧ c ≤ 'f' then some (c.toNat - 'a'.toNat + 10)
  else if 'A' ≤ c ∧ c ≤ 'F' then some (c.toNat - 'A'.toNat + 10)
  else none

/-- The character with a hexadecimal code point. -/
def charOfHex? (digits : Text) : Option Char := do
  let ds ← digits.mapM hexDigit?
  let n := ds.foldl (fun n d => 16 * n + d) 0
  if n.isValidChar then some (Char.ofNat n) else none

/-- What a backslash and a character stand for. -/
def escape? : Char → Option Char
  | 'b' => some '\x08'
  | 't' => some '\t'
  | 'n' => some '\n'
  | 'f' => some '\x0c'
  | 'r' => some '\r'
  | '"' => some '"'
  | '\\' => some '\\'
  | _ => none

/-- The rest of a string in double quotes: what is written up to its end, what it means, and what comes
behind it. -/
def basicRest : Text → Option (Text × Text × Text)
  | [] => none
  | '"' :: rest => some (['"'], [], rest)
  | '\\' :: 'u' :: a :: b :: c :: d :: rest => do
    let x ← charOfHex? [a, b, c, d]
    let (w, m, after) ← basicRest rest
    some ('\\' :: 'u' :: a :: b :: c :: d :: w, x :: m, after)
  | '\\' :: 'U' :: a :: b :: c :: d :: e :: f :: g :: h :: rest => do
    let x ← charOfHex? [a, b, c, d, e, f, g, h]
    let (w, m, after) ← basicRest rest
    some ('\\' :: 'U' :: a :: b :: c :: d :: e :: f :: g :: h :: w, x :: m, after)
  | '\\' :: c :: rest => do
    let x ← escape? c
    let (w, m, after) ← basicRest rest
    some ('\\' :: c :: w, x :: m, after)
  | c :: rest =>
    if isControl c then none
    else do
      let (w, m, after) ← basicRest rest
      some (c :: w, c :: m, after)

/-- The rest of a string in single quotes, which has no escapes. -/
def literalRest : Text → Option (Text × Text × Text)
  | [] => none
  | c :: rest =>
    if c = '\'' then some ([c], [], rest)
    else if isControl c then none
    else do
      let (w, m, after) ← literalRest rest
      some (c :: w, c :: m, after)

/-! ## The next token -/

/-- A run of characters that pass a test, and what comes behind it. -/
def run (test : Char → Bool) (make : Text → Token) (c : Char) (rest : Text) : Token × Text :=
  (make (c :: rest.takeWhile test), rest.dropWhile test)

/-- The token that begins with a character, and what comes behind it. Strings over several lines, which
begin with three quotes, are not among the tokens. -/
def next? (c : Char) (rest : Text) : Option (Token × Text) :=
  if c = '\n' then some (newline, rest)
  else if marks.contains c then some (mark c, rest)
  else if isBlank c then some (run isBlank blank c rest)
  else if c = '#' then some (run (· ≠ '\n') comment c rest)
  else if isWordChar c then some (run isWordChar word c rest)
  else if c = '"' then
    if ['"', '"'].isPrefixOf rest then none
    else (basicRest rest).map fun (w, m, after) => (quoted (c :: w) m, after)
  else if c = '\'' then
    if ['\'', '\''].isPrefixOf rest then none
    else (literalRest rest).map fun (w, m, after) => (quoted (c :: w) m, after)
  else none

theorem basicRest_append {t w m after : Text} (h : basicRest t = some (w, m, after)) :
    w ++ after = t := by
  fun_induction basicRest t generalizing w m after with
  | case1 => simp at h
  | case2 => simp only [Option.some.injEq, Prod.mk.injEq] at h; simp [← h.1, ← h.2.2]
  | case3 a b c d rest ih | case4 a b c d e f g i rest ih | case5 a rest _ _ ih =>
    simp only [bind, Option.bind_eq_some_iff, Prod.exists, Option.some.injEq, Prod.mk.injEq] at h
    obtain ⟨x, -, w', m', r, hr, rfl, rfl, rfl⟩ := h
    simp [ih hr]
  | case6 => simp at h
  | case7 c rest _ _ _ _ _ ih =>
    simp only [bind, Option.bind_eq_some_iff, Prod.exists, Option.some.injEq, Prod.mk.injEq] at h
    obtain ⟨w', m', r, hr, rfl, rfl, rfl⟩ := h
    simp [ih hr]

theorem literalRest_append {t w m after : Text} (h : literalRest t = some (w, m, after)) :
    w ++ after = t := by
  induction t generalizing w m after with
  | nil => simp [literalRest] at h
  | cons c rest ih =>
    simp only [literalRest] at h
    split at h
    · simp only [Option.some.injEq, Prod.mk.injEq] at h; simp [← h.1, ← h.2.2]
    split at h
    · simp at h
    simp only [bind, Option.bind_eq_some_iff, Prod.exists, Option.some.injEq, Prod.mk.injEq] at h
    obtain ⟨w', m', r, hr, rfl, rfl, rfl⟩ := h
    simp [ih hr]

/-- A token and what comes behind it make up the text. -/
theorem next?_append {c : Char} {rest after : Text} {t : Token}
    (h : next? c rest = some (t, after)) : t.written ++ after = c :: rest := by
  unfold next? at h
  split at h
  · cases h; simp_all [written]
  split at h
  · cases h; rfl
  split at h
  · cases h; simp [written, List.takeWhile_append_dropWhile]
  split at h
  · cases h; simp [written, List.takeWhile_append_dropWhile]
  split at h
  · cases h; simp [written, List.takeWhile_append_dropWhile]
  split at h
  · split at h
    · cases h
    · obtain ⟨⟨w, m, r⟩, hr, he⟩ := Option.map_eq_some_iff.1 h
      cases he
      simp [written, basicRest_append hr]
  split at h
  · split at h
    · cases h
    · obtain ⟨⟨w, m, r⟩, hr, he⟩ := Option.map_eq_some_iff.1 h
      cases he
      simp [written, literalRest_append hr]
  · cases h

theorem written_ne_nil {c : Char} {rest after : Text} {t : Token}
    (h : next? c rest = some (t, after)) : t.written ≠ [] := by
  unfold next? run at h
  repeat' split at h
  all_goals first
    | simp at h; done
    | obtain ⟨⟨w, m, r⟩, -, he⟩ := Option.map_eq_some_iff.1 h; cases he; simp [written]
    | cases h; simp [written]

theorem length_of_next? {c : Char} {rest after : Text} {t : Token}
    (h : next? c rest = some (t, after)) : after.length ≤ rest.length := by
  have hl := congrArg List.length (next?_append h)
  have hw := List.length_pos_iff.2 (written_ne_nil h)
  simp only [List.length_append, List.length_cons] at hl
  omega

/-! ## All tokens -/

/-- The tokens of a text. -/
def all? : Text → Option (List Token)
  | [] => some []
  | c :: rest =>
    match _h : next? c rest with
    | none => none
    | some (t, after) => (all? after).map (t :: ·)
termination_by s => s.length
decreasing_by
  have := length_of_next? ‹_›
  simp; omega

/-- The text that tokens make up. -/
def text (ts : List Token) : Text := ts.flatMap written

theorem text_of_all? {s : Text} {ts : List Token} (h : all? s = some ts) : text ts = s := by
  fun_induction all? s generalizing ts with
  | case1 => simp only [Option.some.injEq] at h; simp [← h, text]
  | case2 => simp at h
  | case3 c rest t after hn ih =>
    obtain ⟨us, hu, rfl⟩ := Option.map_eq_some_iff.1 h
    rw [← next?_append hn, ← ih hu]
    simp [text]

/-! ## Writing strings -/

/-- A character as it stands in a string in double quotes. -/
def escaped (c : Char) : Text :=
  if c = '"' ∨ c = '\\' then ['\\', c]
  else if c = '\x08' then ['\\', 'b']
  else if c = '\t' then ['\\', 't']
  else if c = '\n' then ['\\', 'n']
  else if c = '\x0c' then ['\\', 'f']
  else if c = '\r' then ['\\', 'r']
  else if c.toNat < 0x20 ∨ c.toNat = 0x7f then '\\' :: 'u' :: Text.hex 4 c.toNat
  else [c]

/-- The string in double quotes that means a text. -/
def ofText (t : Text) : Token := quoted ('"' :: t.flatMap escaped ++ ['"']) t

end Token

end Stylesheet.Toml
