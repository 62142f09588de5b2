import Stylesheet.Sheet.Layout

/-!
# Values

Pieces of a sheet as values that can be compared with each other, whatever their shape: absent
values, plain texts, spans, declarations, rules and sheets, nested in any way. Two values are the same
if they have the same content: which source a span points into, and where, does not count, and a span
is the same as the plain text that it covers.
-/

namespace Stylesheet

inductive Value
  | absent
  | text (t : Text)
  | span (s : Span)
  | declaration (kind : PropertyKind) (value : Value)
  | rule (selector : Value) (declarations : List Value)
  | sheet (rules : List Value)

namespace Value

/-! ## Typed values as values -/

def ofDeclaration (d : Declaration) : Value := declaration d.kind (span d.value)

def ofRule (r : Rule) : Value := rule (span r.selector) (r.declarations.map ofDeclaration)

def ofSheet (s : Sheet) : Value := sheet (s.rules.map ofRule)

/-! ## Sameness -/

mutual

/-- Whether two values have the same content. -/
def same : Value → Value → Bool
  | absent, absent => true
  | text a, text b => a = b
  | text a, span b => a = b.text
  | span a, text b => a.text = b
  | span a, span b => a.text = b.text
  | declaration k a, declaration l b => k = l && same a b
  | rule s ds, rule t es => same s t && sameAll ds es
  | sheet rs, sheet qs => sameAll rs qs
  | _, _ => false

/-- Whether two lists of values have the same length and the same content, place by place. -/
def sameAll : List Value → List Value → Bool
  | [], [] => true
  | a :: as, b :: bs => same a b && sameAll as bs
  | _, _ => false

end

/-- What a value says itself of being the same as another one. Absent values, texts and spans say
nothing of kinds that they do not know, and texts do not know spans. -/
def answer? : Value → Value → Option Bool
  | absent, absent => some true
  | text a, text b => some (a = b)
  | span a, text b => some (a.text = b)
  | span a, span b => some (a.text = b.text)
  | declaration k a, declaration l b => some (k = l && same a b)
  | declaration _ _, _ => some false
  | rule s ds, rule t es => some (same s t && sameAll ds es)
  | rule _ _, _ => some false
  | sheet rs, sheet qs => some (sameAll rs qs)
  | sheet _, _ => some false
  | _, _ => none

/-- Whether two values differ: the first one says so, or else the second one, and they do if both say
nothing. -/
def differ (a b : Value) : Bool := (((a.answer? b).or (b.answer? a)).map (!·)).getD true

/-! ## Digests -/

/-- How numbers are made out of texts, names of properties, and numbers that come one after another. -/
structure Hashing where
  absent : Nat
  text : Text → Nat
  kind : PropertyKind → Nat
  tuple : List Nat → Nat

namespace Hashing

/-- One number for two. -/
def mix (a b : Nat) : Nat := (1000003 * a + b) % 0x1fffffffffffffff

def mixText (t : Text) : Nat := t.foldl (fun n c => mix n c.toNat) 0

def mixed : Hashing := ⟨0, mixText, fun k => mixText k.name, List.foldr mix 1⟩

end Hashing

mutual

/-- A number that values with the same content share. Declared values and selectors have to be spans. -/
def digest? (h : Hashing) : Value → Option Nat
  | absent => some h.absent
  | text t => some (h.text t)
  | span s => some (h.text s.text)
  | declaration k (span s) => some (h.tuple [h.kind k, h.text s.text])
  | declaration _ _ => none
  | rule (span s) ds => (digestAll? h ds).map fun n => h.tuple [h.text s.text, h.tuple n]
  | rule _ _ => none
  | sheet rs => (digestAll? h rs).map h.tuple

def digestAll? (h : Hashing) : List Value → Option (List Nat)
  | [] => some []
  | v :: vs => do
    let d ← digest? h v
    let ds ← digestAll? h vs
    some (d :: ds)

end

/-- How many members the set of two values has. A member is looked up by its digest. -/
def distinctBy? (h : Hashing) (a b : Value) : Option Nat := do
  let d ← a.digest? h
  let e ← b.digest? h
  some (if d = e ∧ a.same b = true then 1 else 2)

def distinct? : Value → Value → Option Nat := distinctBy? .mixed

/-! ## Written forms -/

mutual

/-- The value written out. -/
def written : Value → Text
  | absent => "None".toList
  | text t => t
  | span s => s.text
  | declaration k v => Layout.pair k.name (written v)
  | rule s ds => Layout.compact (written s) (writtenAll ds)
  | sheet rs => Sheet.describedSize rs.length

def writtenAll : List Value → List Text
  | [] => []
  | v :: vs => written v :: writtenAll vs

end

/-- The pair of a declaration. -/
def pair? : Value → Option Text
  | declaration k v => some (Layout.pair k.name v.written)
  | _ => none

/-- A rule in a given form, if all its members are declarations. -/
def laidOut? (form : Text → List Text → Text) : Value → Option Text
  | rule s ds => (ds.mapM pair?).map (form s.written)
  | _ => none

/-- The text of a declared value that is a span. -/
def spanText? : Value → Option Text
  | span s => some s.text
  | _ => none

/-- The blocks of a sheet with a blank line between neighbours, if all its members are rules. -/
def blocks? (rules : List Value) : Option Text :=
  (rules.mapM (laidOut? Layout.block)).map (List.intercalate ['\n'])

/-- The listings of a sheet, if all its members are rules. -/
def listings? (rules : List Value) : Option Text :=
  (rules.mapM (laidOut? Layout.listing)).map List.flatten

end Value

end Stylesheet
