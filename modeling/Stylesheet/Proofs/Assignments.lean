import Mathlib.Data.List.TakeWhile
import Stylesheet.Proofs.Versions

/-!
# Replacing assignments

A text is cut at its assignments, from left to right. Another assignment in the place of each gives a
text that is cut at the same places: nothing that stands between two assignments becomes part of one.
-/

namespace Stylesheet.Release.Assignment

/-! ## Matches -/

/-- Whether a character may stand between the quotes of an assignment. -/
def isInner (c : Char) : Bool := !isQuote c && c != '\n'

inductive IsAssignment : Text → Prop
  | quoted {q q' : Char} {body : Text} (hq : isQuote q) (hbody : ∀ c ∈ body, isInner c)
      (hq' : isQuote q') : IsAssignment (head ++ q :: body ++ [q'])

theorem not_isInner_of_isQuote {q : Char} (hq : isQuote q) : ¬isInner q := by
  simp [isInner, hq]

theorem quoted?_cons (q : Char) (rest : Text) :
    quoted? (q :: rest) =
      if isQuote q then
        (rest.dropWhile isInner).head?.bind fun c =>
          if isQuote c then some (q :: rest.takeWhile isInner ++ [c]) else none
      else none := by
  have hdrop : rest.drop (rest.takeWhile fun c => !isQuote c && c != '\n').length =
      rest.dropWhile isInner := by
    conv => lhs; arg 2; rw [← List.takeWhile_append_dropWhile (p := isInner) (l := rest)]
    exact List.drop_left
  unfold quoted?
  simp only [hdrop]
  cases (rest.dropWhile isInner).head? <;> rfl

theorem match?_head_append (t : Text) : match? (head ++ t) = (quoted? t).map (head ++ ·) := by
  rw [match?, if_pos (List.isPrefixOf_iff_prefix.mpr (List.prefix_append head t)), List.drop_left]

theorem match?_append {m : Text} (h : IsAssignment m) (rest : Text) :
    match? (m ++ rest) = some m := by
  obtain @⟨q, q', body, hq, hbody, hq'⟩ := h
  have hrest : head ++ q :: body ++ [q'] ++ rest = head ++ (q :: (body ++ q' :: rest)) := by simp
  rw [hrest, match?_head_append, quoted?_cons, if_pos hq,
    List.dropWhile_append_of_pos hbody, List.takeWhile_append_of_pos hbody,
    List.dropWhile_cons_of_neg (not_isInner_of_isQuote hq'),
    List.takeWhile_cons_of_neg (not_isInner_of_isQuote hq')]
  simp [hq']

theorem exists_of_quoted? {t m : Text} (h : quoted? t = some m) :
    IsAssignment (head ++ m) ∧ ∃ rest, t = m ++ rest := by
  rcases t with _ | ⟨q, t⟩
  · cases h
  rw [quoted?_cons] at h
  split at h
  case isFalse => cases h
  case isTrue hq =>
    obtain ⟨c, hhead, hc⟩ := Option.bind_eq_some_iff.mp h
    obtain ⟨rest, hrest⟩ := List.head?_eq_some_iff.mp hhead
    split at hc
    case isFalse => cases hc
    case isTrue hquote =>
      cases hc
      have hassignment : IsAssignment (head ++ q :: t.takeWhile isInner ++ [c]) :=
        .quoted hq (fun x hx => List.mem_takeWhile_imp hx) hquote
      refine ⟨by simpa using hassignment, rest, ?_⟩
      conv => lhs; rw [← List.takeWhile_append_dropWhile (p := isInner) (l := t), hrest]
      simp

theorem exists_of_match? {t m : Text} (h : match? t = some m) :
    IsAssignment m ∧ ∃ rest, t = m ++ rest := by
  unfold match? at h
  split at h
  case isFalse => cases h
  case isTrue hhead =>
    obtain ⟨t, rfl⟩ := List.isPrefixOf_iff_prefix.mp hhead
    rw [List.drop_left] at h
    obtain ⟨m, hm, rfl⟩ := Option.map_eq_some_iff.mp h
    obtain ⟨hassignment, rest, rfl⟩ := exists_of_quoted? hm
    exact ⟨hassignment, rest, (List.append_assoc _ _ _).symm⟩

theorem isSome_quoted? (q : Char) (rest : Text) :
    (quoted? (q :: rest)).isSome = (isQuote q && (rest.dropWhile isInner).head?.any isQuote) := by
  rw [quoted?_cons]
  cases isQuote q
  · rfl
  cases rest.dropWhile isInner with
  | nil => rfl
  | cons c _ => cases hc : isQuote c <;> simp [hc]

theorem not_isQuote_of_mem_head {c : Char} (h : c ∈ head) : ¬isQuote c := by
  have hall : head.all (!isQuote ·) := by decide
  simpa using List.all_eq_true.mp hall c h

/-- What comes behind a quote that is not the first one of an assignment does not matter. -/
theorem isSome_match?_of_isQuote {y r r' : Text} {q q' : Char} (hy : y.length ≠ head.length)
    (hq : isQuote q) (hq' : isQuote q') (h : (match? (y ++ q :: r)).isSome) :
    (match? (y ++ q' :: r')).isSome := by
  obtain ⟨m, hm⟩ := Option.isSome_iff_exists.mp h
  obtain ⟨⟨-, -, -⟩, rest, hrest⟩ := exists_of_match? hm
  have hhead : head <+: y ++ q :: r := by
    rw [hrest, List.append_assoc, List.append_assoc]
    exact List.prefix_append _ _
  rcases Nat.lt_or_gt_of_ne hy with hlt | hgt
  · -- The quote would stand inside the head, which has none.
    have hquote : y ++ [q] <+: head :=
      List.prefix_of_prefix_length_le (by simp) hhead (by simp; omega)
    exact absurd hq (not_isQuote_of_mem_head (hquote.subset (by simp)))
  · obtain ⟨z, rfl⟩ := List.prefix_of_prefix_length_le hhead (List.prefix_append y _) (Nat.le_of_lt hgt)
    rcases z with _ | ⟨q₀, body⟩
    · simp at hgt
    rw [List.append_assoc, match?_head_append, Option.isSome_map, List.cons_append, isSome_quoted?]
      at h ⊢
    -- The closing quote stands before the one that is changed, or is that one.
    rw [List.dropWhile_append] at h ⊢
    rcases hrest : body.dropWhile isInner with _ | ⟨c, rest⟩
    · simp_all [not_isInner_of_isQuote]
    · simpa [hrest] using h

/-! ## Cuts -/

theorem segmentsFrom_eq (n : Nat) (t : Text) : segmentsFrom n t = segments (t.drop n) := by
  induction n generalizing t with
  | zero => rfl
  | succ n ih =>
    cases t with
    | nil => rfl
    | cons c t => exact ih t

/-- A text that is cut into segments. -/
inductive Cuts : Text → List Segment → Prop
  | nil : Cuts [] []
  | other {c : Char} {t : Text} {ss : List Segment} (hnone : match? (c :: t) = none)
      (hrest : Cuts t ss) : Cuts (c :: t) (.other c :: ss)
  | assignment {m t : Text} {ss : List Segment} (hm : IsAssignment m) (hrest : Cuts t ss) :
      Cuts (m ++ t) (.assignment m :: ss)

theorem segments_of_cuts {t : Text} {ss : List Segment} (h : Cuts t ss) : segments t = ss := by
  induction h with
  | nil => rfl
  | other hnone _ ih =>
    rw [segments, segmentsFrom, hnone]
    exact congrArg _ ih
  | @assignment m t ss hm _ ih =>
    obtain ⟨c, m', rfl⟩ : ∃ c m', m = c :: m' := by
      obtain ⟨⟩ := hm
      exact ⟨_, _, rfl⟩
    rw [segments, List.cons_append, segmentsFrom, ← List.cons_append, match?_append hm]
    simp only [segmentsFrom_eq, List.length_cons, Nat.add_sub_cancel, List.drop_left, ih]

theorem cuts_segments (t : Text) : Cuts t (segments t) := by
  suffices ∃ ss, Cuts t ss by
    obtain ⟨ss, h⟩ := this
    exact segments_of_cuts h ▸ h
  induction hn : t.length using Nat.strong_induction_on generalizing t with
  | _ n ih =>
    rcases t with _ | ⟨c, t⟩
    · exact ⟨[], .nil⟩
    rcases hmatch : match? (c :: t) with _ | m
    · obtain ⟨ss, h⟩ := ih t.length (by simp [← hn]) t rfl
      exact ⟨_, .other hmatch h⟩
    · obtain ⟨hm, rest, hrest⟩ := exists_of_match? hmatch
      have hlength : rest.length < n := by
        obtain ⟨⟩ := hm
        rw [← hn, hrest]
        simp
        omega
      obtain ⟨ss, h⟩ := ih rest.length hlength rest rfl
      rw [hrest]
      exact ⟨_, .assignment hm h⟩

/-! ## Replacing -/

/-- The text of segments. -/
def joined (ss : List Segment) : Text := ss.flatMap Segment.text

@[simp] theorem joined_cons (s : Segment) (ss : List Segment) :
    joined (s :: ss) = s.text ++ joined ss := rfl

/-- A segment with another assignment in the place of an assignment. -/
def Segment.put (w : Text) : Segment → Segment
  | .other c => .other c
  | .assignment _ => .assignment w

variable {w t : Text} {ss : List Segment}

theorem IsAssignment.exists_quote (h : IsAssignment w) :
    ∃ q r, isQuote q ∧ w = head ++ q :: r := by
  obtain @⟨q, q', body, hq, -, -⟩ := h
  exact ⟨q, body ++ [q'], hq, by simp⟩

/-- The texts agree up to the opening quote of the first assignment. -/
theorem Cuts.joined_put (hw : IsAssignment w) (h : Cuts t ss) :
    joined (ss.map (Segment.put w)) = t ∨
      ∃ y q q' r r', head.length ≤ y.length ∧ isQuote q ∧ isQuote q' ∧ t = y ++ q :: r ∧
        joined (ss.map (Segment.put w)) = y ++ q' :: r' := by
  induction h with
  | nil => exact .inl rfl
  | @other c t ss _ _ ih =>
    rcases ih with h | ⟨y, q, q', r, r', hy, hq, hq', ht, hput⟩
    · exact .inl (congrArg (c :: ·) h)
    · exact .inr ⟨c :: y, q, q', r, r', Nat.le_succ_of_le hy, hq, hq', congrArg (c :: ·) ht,
        congrArg (c :: ·) hput⟩
  | @assignment m t ss hm _ _ =>
    obtain ⟨q, r, hq, rfl⟩ := hm.exists_quote
    obtain ⟨q', r', hq', rfl⟩ := hw.exists_quote
    exact .inr ⟨head, q, q', r ++ t, r' ++ joined (ss.map (Segment.put (head ++ q' :: r'))),
      Nat.le_refl _, hq, hq', by simp, by simp [Segment.put, Segment.text]⟩

theorem Cuts.put (hw : IsAssignment w) (h : Cuts t ss) :
    Cuts (joined (ss.map (Segment.put w))) (ss.map (Segment.put w)) := by
  induction h with
  | nil => exact .nil
  | @other c t ss hnone hrest ih =>
    change Cuts (c :: joined (ss.map (Segment.put w))) (.other c :: ss.map (Segment.put w))
    refine .other ?_ ih
    rcases hrest.joined_put hw with h | ⟨y, q, q', r, r', hy, hq, hq', ht, hput⟩
    · rw [h]
      exact hnone
    · -- A new match would be one of the old text, too.
      rw [← Option.not_isSome_iff_eq_none] at hnone ⊢
      rw [ht] at hnone
      rw [hput]
      exact fun hsome => hnone
        (isSome_match?_of_isQuote (y := c :: y) (by simp; omega) hq' hq hsome)
  | assignment hm _ ih => exact .assignment hw ih

theorem segments_put (hw : IsAssignment w) (t : Text) :
    segments (joined ((segments t).map (Segment.put w))) = (segments t).map (Segment.put w) :=
  segments_of_cuts ((cuts_segments t).put hw)

theorem joined_of_cuts (h : Cuts t ss) : joined ss = t := by
  induction h with
  | nil => rfl
  | other _ _ ih => exact congrArg _ ih
  | assignment _ _ ih => exact congrArg _ ih

theorem mem_joined_put {c : Char} (h : c ∈ joined (ss.map (Segment.put w))) : c ∈ joined ss ∨ c ∈ w := by
  obtain ⟨_, hput, hc⟩ := List.mem_flatMap.mp h
  obtain ⟨s, hs, rfl⟩ := List.mem_map.mp hput
  cases s with
  | other x => exact .inl (List.mem_flatMap.mpr ⟨_, hs, hc⟩)
  | assignment m => exact .inr hc

theorem any_isAssignment_put (w : Text) (ss : List Segment) :
    (ss.map (Segment.put w)).any Segment.isAssignment = ss.any Segment.isAssignment := by
  rw [List.any_map]
  congr 1
  funext s
  cases s <;> rfl

theorem eq_of_mem_put {m : Text} (h : .assignment m ∈ ss.map (Segment.put w)) : m = w := by
  obtain ⟨s, -, hs⟩ := List.mem_map.mp h
  cases s <;> cases hs
  rfl

/-- The text with another assignment in the place of every match. -/
def putAll (w t : Text) : Text := joined ((segments t).map (Segment.put w))

theorem segments_putAll (hw : IsAssignment w) (t : Text) :
    segments (putAll w t) = (segments t).map (Segment.put w) :=
  segments_put hw t

theorem occurs_putAll (hw : IsAssignment w) (t : Text) : occurs (putAll w t) = occurs t := by
  rw [occurs, segments_putAll hw, any_isAssignment_put, occurs]

theorem replaced_eq {w : Text} (hw : '\\' ∉ w) {ps : List Part} (hps : Template.parts w = .ok ps)
    (t : Text) : replaced ps t = putAll w t := by
  rw [Template.parts_of_not_mem hw] at hps
  cases hps
  have hexpand (m : Text) : Template.expand (w.map fun c => .text [c]) m = w := by
    simp [Template.expand, List.flatMap_map]
  rw [replaced, putAll, joined, List.flatMap_map]
  congr 1
  funext s
  cases s with
  | other c => rfl
  | assignment m => exact hexpand m

/-! ## Versions as assignments -/

theorem not_mem_template {v : Text} (hv : isVersion v) {c : Char} (hhead : c ∉ head)
    (hdigit : isDigit c = false) (hquote : c ≠ '"') (hdot : c ≠ '.') (hfeed : c ≠ '\n') :
    c ∉ template v := by
  have hversion : c ∉ v := fun h => by
    rcases char_of_isVersion hv h with h | h | h
    · cases hdigit.symm.trans h
    · exact hdot h
    · exact hfeed h
  unfold template
  simp [hhead, hversion, hquote]

theorem isAssignment_template {v : Text} (hv : isVersion v) (hfeed : '\n' ∉ v) :
    IsAssignment (template v) := by
  refine .quoted (by decide) (fun c hc => ?_) (by decide)
  have hquotes : isDigit '"' = false ∧ isDigit '\'' = false := by decide
  rcases char_of_isVersion hv hc with h | rfl | rfl
  · have hdouble : c ≠ '"' := fun he => by cases hquotes.1.symm.trans (he ▸ h)
    have hsingle : c ≠ '\'' := fun he => by cases hquotes.2.symm.trans (he ▸ h)
    have hne : c ≠ '\n' := fun he => hfeed (he ▸ hc)
    simp [isInner, isQuote, hdouble, hsingle, hne]
  · decide
  · exact absurd hc hfeed

end Stylesheet.Release.Assignment
