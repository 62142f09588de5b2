import Stylesheet.Proofs.Reading

/-!
# The language that is read

Reading accepts exactly the texts that the grammar derives with the names of the recognised
properties, and gives what the derivation says.
-/

namespace Stylesheet

theorem derives_content_of_parse? {source : Text} {s : Sheet} (h : Sheet.parse? source = .ok s) :
    DerivesSheet .properties source s.content := by
  rw [derivesSheet_iff]
  exact tokens_of_read (parse?_eq_ok.mp h)

theorem parse?_of_derives {source : Text} {c : SheetContent}
    (h : DerivesSheet .properties source c) :
    ∃ s, Sheet.parse? source = .ok s ∧ s.content = c := by
  cases hs : Sheet.parse? source with
  | error e =>
    obtain ⟨f, hf, -⟩ := parse?_eq_error.mp hs
    rw [verdict_eq_none_iff.mpr ⟨c, h⟩] at hf
    cases hf
  | ok s => exact ⟨s, rfl, content_eq_of_derivesSheet (derives_content_of_parse? hs) h⟩

def Accepted (t : Text) : Prop := ∃ s, Sheet.parse? t = .ok s

theorem accepted_iff_derives {t : Text} : Accepted t ↔ ∃ c, DerivesSheet .properties t c := by
  constructor
  · rintro ⟨s, hs⟩
    exact ⟨s.content, derives_content_of_parse? hs⟩
  · rintro ⟨c, hc⟩
    obtain ⟨s, hs, -⟩ := parse?_of_derives hc
    exact ⟨s, hs⟩

theorem accepted_iff_verdict {t : Text} : Accepted t ↔ verdict .properties t = none := by
  rw [accepted_iff_derives, verdict_eq_none_iff]

/-- A text is accepted exactly if it is derivable. The sheet it gives is the content of the derivation,
rule by rule and declaration by declaration, and all derivations have the same content. -/
theorem parse?_ok_iff_derives (source : Text) :
    (Accepted source ↔ ∃ c, DerivesSheet .properties source c) ∧
    (∀ s, Sheet.parse? source = .ok s → DerivesSheet .properties source s.content) ∧
    ∀ c e, DerivesSheet .properties source c → DerivesSheet .properties source e → c = e :=
  ⟨accepted_iff_derives, fun _ => derives_content_of_parse?, fun _ _ => content_eq_of_derivesSheet⟩

end Stylesheet
