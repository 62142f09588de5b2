import Stylesheet.Proofs.Documents
import Stylesheet.Toml.Library

/-!
# Laws of libraries

What the commands rely on in a library for settings documents.
-/

namespace Stylesheet.Toml

/-- A document in which a value was set can be written and read again. -/
class LawfulLibrary [Library] : Prop where
  /-- The string that was set is read again. -/
  parse_text_set {t table key : Text} {d : Library.Document} (v : Text) (ht : Library.parse t = .ok d)
    (hnode : Library.node d table = .table) (hvalue : (Library.value? d table key).isSome) :
    ∃ d', Library.parse (Library.text (Library.set d table key v)) = .ok d' ∧
      Library.node d' table = .table ∧
      (Library.value? d' table key).bind Library.string? = some v
  /-- Ends of lines stay line feeds. -/
  not_mem_text_set {t table key : Text} {d : Library.Document} (v : Text) (ht : Library.parse t = .ok d)
    (hnode : Library.node d table = .table) (hvalue : (Library.value? d table key).isSome)
    (hreturn : '\r' ∉ t) : '\r' ∉ Library.text (Library.set d table key v)

theorem Document.exists_of_value? {d : Document} {names : List Text} (h : (d.value? names).isSome) :
    ∃ s l, d.find? names = some (s, l) ∧ ∀ v, d.setValue names v = d.set s v := by
  rcases hf : d.find? names with _ | ⟨s, l⟩
  · rw [Document.value?, hf] at h
    cases h
  · exact ⟨s, l, rfl, fun v => by rw [Document.setValue, hf]⟩

theorem Document.value?_set {d : Document} {names : List Text} {s : Document.Site} {l : Literal}
    (h : d.find? names = some (s, l)) (v : Text) : (d.set s v).value? names = some (.text v) := by
  rw [Document.value?, Document.find?_set h v, Option.map_some]

/-- The documents of this project are read as they are written. -/
instance : LawfulLibrary where
  parse_text_set {t table key d} v ht hnode hvalue := by
    obtain ⟨s, l, hf, hset⟩ := Document.exists_of_value? hvalue
    refine ⟨d.set s v, ?_, Document.node_set ht hnode hf v, ?_⟩
    · change Document.ofText? (d.setValue [table, key] v).text = _
      rw [hset]
      exact Document.ofText?_set ht hf v
    · change ((d.set s v).value? [table, key]).bind Literal.string? = some v
      rw [Document.value?_set hf v]
      rfl
  not_mem_text_set {t table key d} v ht _ hvalue hreturn := by
    obtain ⟨s, l, hf, hset⟩ := Document.exists_of_value? hvalue
    obtain ⟨a, i, b, -, -, rfl, htext⟩ := Document.exists_text_set ht hf
    have hwritten := Token.not_mem_written_ofText v
    change '\r' ∉ (d.setValue [table, key] v).text
    rw [hset, htext]
    simp only [List.mem_append, not_or] at hreturn ⊢
    exact ⟨⟨hreturn.1.1, hwritten⟩, hreturn.2⟩

end Stylesheet.Toml
