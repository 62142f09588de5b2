import Stylesheet.Toml.Item

/-!
# Items and their tokens

Tokens are nested into items in one way only: the items of tokens have these tokens, and items without
stray brackets are the items of their tokens.
-/

namespace Stylesheet.Toml.Item

/-! ## Items without stray brackets -/

def isBracket (t : Token) : Bool :=
  (bracketOf Bracket.opening t).isSome || (bracketOf Bracket.closing t).isSome

mutual

def Plain : Item → Prop
  | token t => isBracket t = false
  | group _ inner => AllPlain inner

def AllPlain : List Item → Prop
  | [] => True
  | i :: is => Plain i ∧ AllPlain is

end

theorem allPlain_iff {is : List Item} : AllPlain is ↔ ∀ i ∈ is, Plain i := by
  induction is with
  | nil => simp [AllPlain]
  | cons i is ih => simp [AllPlain, ih]

/-! ## From items to tokens and back -/

variable {open' : List (Bracket × List Item)} {before : List Item} {ts : List Token}

theorem bracketOf_opening (b : Bracket) : bracketOf Bracket.opening (.mark b.opening) = some b := by
  cases b <;> rfl

theorem bracketOf_closing (b : Bracket) :
    bracketOf Bracket.opening (.mark b.closing) = none ∧
      bracketOf Bracket.closing (.mark b.closing) = some b := by
  cases b <;> exact ⟨rfl, rfl⟩

theorem eq_of_bracketOf {side : Bracket → Char} {t : Token} {b : Bracket}
    (h : bracketOf side t = some b) : t = .mark (side b) := by
  unfold bracketOf at h
  split at h
  · rename_i c
    have hc := List.find?_some h
    rw [← of_decide_eq_true hc]
  · cases h

theorem gather?_opening (b : Bracket) :
    gather? open' before (.mark b.opening :: ts) = gather? ((b, before) :: open') [] ts := by
  cases open' <;> rw [gather?, bracketOf_opening]

theorem gather?_closing (b : Bracket) (inner : List Item) :
    gather? ((b, before) :: open') inner (.mark b.closing :: ts) =
      gather? open' (group b inner.reverse :: before) ts := by
  rw [gather?, (bracketOf_closing b).1, (bracketOf_closing b).2]
  simp

theorem gather?_token {t : Token} (ht : isBracket t = false) :
    gather? open' before (t :: ts) = gather? open' (token t :: before) ts := by
  simp only [isBracket, Bool.or_eq_false_iff, Option.isSome_eq_false_iff, Option.isNone_iff_eq_none]
    at ht
  cases open' <;> rw [gather?, ht.1, ht.2]

mutual

theorem gather?_tokens (i : Item) (hi : Plain i) (open' : List (Bracket × List Item))
    (before : List Item) (ts : List Token) :
    gather? open' before (tokens i ++ ts) = gather? open' (i :: before) ts := by
  cases i with
  | token t => exact gather?_token hi
  | group b inner =>
    rw [tokens, List.cons_append, List.cons_append, gather?_opening, List.append_assoc,
      gather?_tokensOf inner hi, List.append_nil, List.singleton_append, gather?_closing,
      List.reverse_reverse]

theorem gather?_tokensOf (is : List Item) (his : AllPlain is) (open' : List (Bracket × List Item))
    (before : List Item) (ts : List Token) :
    gather? open' before (tokensOf is ++ ts) = gather? open' (is.reverse ++ before) ts := by
  cases is with
  | nil => rfl
  | cons i is =>
    rw [tokensOf, List.append_assoc, gather?_tokens i his.1, gather?_tokensOf is his.2,
      List.reverse_cons, List.append_assoc, List.singleton_append]

end

theorem ofTokens?_tokensOf {is : List Item} (his : AllPlain is) :
    ofTokens? (tokensOf is) = some is := by
  have h := gather?_tokensOf is his [] [] []
  rw [List.append_nil, List.append_nil] at h
  rw [ofTokens?, h, gather?, List.reverse_reverse]

/-! ## From tokens to items and back -/

/-- The tokens that were gathered inside open brackets. -/
def gathered : List (Bracket × List Item) → List Item → List Token
  | [], before => tokensOf before.reverse
  | (b, outer) :: open', before => gathered open' outer ++ .mark b.opening :: tokensOf before.reverse

def AllOpenPlain (open' : List (Bracket × List Item)) : Prop := ∀ o ∈ open', AllPlain o.2

theorem gathered_cons (open' : List (Bracket × List Item)) (i : Item) (before : List Item) :
    gathered open' (i :: before) = gathered open' before ++ tokens i := by
  cases open' <;> simp [gathered, tokensOf_append, tokensOf_singleton]

theorem of_gather? {is : List Item} (h : gather? open' before ts = some is) (hbefore : AllPlain before)
    (hopen : AllOpenPlain open') : tokensOf is = gathered open' before ++ ts ∧ AllPlain is := by
  fun_induction gather? open' before ts with
  | case1 before =>
    cases h
    refine ⟨by simp [gathered], ?_⟩
    rw [allPlain_iff] at hbefore ⊢
    simpa using hbefore
  | case2 => cases h
  | case3 open' before t ts b hb ih =>
    obtain ⟨htokens, his⟩ := ih h trivial (List.forall_mem_cons.mpr ⟨hbefore, hopen⟩)
    refine ⟨?_, his⟩
    rw [htokens, gathered, eq_of_bracketOf hb, List.append_assoc]
    rfl
  | case4 open' before t ts hopening hclosing ih =>
    have ht : Plain (token t) := by simp [Plain, isBracket, hopening, hclosing]
    obtain ⟨htokens, his⟩ := ih h ⟨ht, hbefore⟩ hopen
    refine ⟨?_, his⟩
    rw [htokens, gathered_cons, tokens, List.append_assoc, List.singleton_append]
  | case5 => cases h
  | case6 before t ts hopening b outer rest hb ih =>
    obtain ⟨houter, hrest⟩ := List.forall_mem_cons.mp hopen
    have hgroup : Plain (group b before.reverse) := by
      rw [Plain, allPlain_iff]
      rw [allPlain_iff] at hbefore
      simpa using hbefore
    obtain ⟨htokens, his⟩ := ih h ⟨hgroup, houter⟩ hrest
    refine ⟨?_, his⟩
    rw [htokens, gathered_cons, tokens, gathered, eq_of_bracketOf hb]
    simp
  | case7 => cases h

theorem ofTokens?_eq_some_iff {is : List Item} : ofTokens? ts = some is ↔ tokensOf is = ts ∧ AllPlain is := by
  constructor
  · exact fun h => of_gather? h trivial fun _ ho => nomatch ho
  · rintro ⟨rfl, his⟩
    exact ofTokens?_tokensOf his

end Stylesheet.Toml.Item
