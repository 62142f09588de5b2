import Stylesheet.Toml.Token

/-!
# Items

Tokens nest in brackets. An item is a token outside all brackets or a pair of brackets with the items
inside. The items, too, keep every token.
-/

namespace Stylesheet.Toml

inductive Bracket
  | square
  | curly
deriving DecidableEq

namespace Bracket

def opening : Bracket → Char
  | square => '['
  | curly => '{'

def closing : Bracket → Char
  | square => ']'
  | curly => '}'

def all : List Bracket := [square, curly]

end Bracket

inductive Item
  | token (t : Token)
  | group (b : Bracket) (inner : List Item)

namespace Item

/-! ## Tokens of items -/

mutual

def tokens : Item → List Token
  | token t => [t]
  | group b inner => .mark b.opening :: tokensOf inner ++ [.mark b.closing]

def tokensOf : List Item → List Token
  | [] => []
  | i :: is => tokens i ++ tokensOf is

end

theorem tokensOf_append (a b : List Item) : tokensOf (a ++ b) = tokensOf a ++ tokensOf b := by
  induction a with
  | nil => rfl
  | cons i is ih => simp [tokensOf, ih]

theorem tokensOf_singleton (i : Item) : tokensOf [i] = tokens i := by simp [tokensOf]

/-! ## Items of tokens -/

/-- The bracket that a token opens or closes. -/
def bracketOf (side : Bracket → Char) : Token → Option Bracket
  | .mark c => Bracket.all.find? (side · = c)
  | _ => none

/-- Reads tokens inside open brackets. The innermost bracket is first. With each goes what came before
it, and `before` is what came inside the innermost one, both from right to left. -/
def gather? : List (Bracket × List Item) → List Item → List Token → Option (List Item)
  | [], before, [] => some before.reverse
  | _ :: _, _, [] => none
  | open', before, t :: ts =>
    match bracketOf Bracket.opening t with
    | some b => gather? ((b, before) :: open') [] ts
    | none =>
      match bracketOf Bracket.closing t with
      | none => gather? open' (token t :: before) ts
      | some b =>
        match open' with
        | [] => none
        | (b', outer) :: rest =>
          if b = b' then gather? rest (group b before.reverse :: outer) ts else none

/-- The items of tokens, if the brackets match. -/
def ofTokens? (ts : List Token) : Option (List Item) := gather? [] [] ts

/-- The text that items make up. -/
def text (is : List Item) : Text := Token.text (tokensOf is)

end Item

end Stylesheet.Toml
