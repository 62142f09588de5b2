import Stylesheet.Command.Bump
import Stylesheet.Proofs.Library

/-!
# Settings that state a version

What the commands make of the text of a settings document. The shortest such text states a version and
nothing else.
-/

namespace Stylesheet

open Toml Release

namespace Command.Bump

variable [Library]

theorem exists_of_editSettings {version t new : Text} (h : editSettings version t = .ok new) :
    ∃ d, Library.parse t = .ok d ∧ Library.node d projectKey = .table ∧
      (Library.value? d projectKey versionKey).isSome ∧
      new = Library.text (Library.set d projectKey versionKey version) := by
  unfold editSettings Settings.withVersion at h
  rcases hparse : Library.parse t with fault | d <;> rw [hparse] at h
  · cases h
  refine ⟨d, rfl, ?_⟩
  rcases hnode : Library.node d projectKey with _ | v | _ | _ <;>
    simp only [Except.mapError, bind, Except.bind, hnode] at h
  · cases h
  · cases h
  · by_cases hvalue : (Library.value? d projectKey versionKey).isSome
    · rw [if_pos hvalue] at h
      cases h
      exact ⟨rfl, hvalue, rfl⟩
    · rw [if_neg hvalue] at h
      cases h
  · cases h

end Command.Bump

/-! ## The shortest settings -/

namespace Release.Settings

def items (version : Text) : List Item :=
  [.group .square [.token (.word projectKey)], .token .newline, .token (.word versionKey),
    .token (.blank [' ']), .token (.mark '='), .token (.blank [' ']), .token (.ofText version),
    .token .newline]

def document (version : Text) : Document where
  items := items version
  registry := [([.name projectKey, .name versionKey], .value), ([.name projectKey], .opened)]
  bindings := [⟨[.name projectKey, .name versionKey], 6, .text version⟩]

/-- Settings that state a version and nothing else. -/
def shortest (version : Text) : Text := (document version).text

example : shortest "0.1.0".toList = "[project]\nversion = \"0.1.0\"\n".toList := by decide

theorem written_items (version : Text) : Item.Written (items version) where
  reads := ⟨rfl, rfl, rfl, rfl, rfl, rfl, rfl, rfl, Token.fits_ofText (by decide), rfl, trivial⟩
  plain := ⟨⟨rfl, trivial⟩, rfl, rfl, rfl, rfl, rfl, rfl, rfl, trivial⟩

theorem ofText?_shortest (version : Text) :
    Document.ofText? (shortest version) = .ok (document version) :=
  Document.ofText?_eq_ok.mpr ⟨rfl, written_items version, rfl⟩

theorem stated_shortest (version : Text) :
    Command.Bump.stated (shortest version) = .ok (some (.text version)) := by
  have hparse : Library.parse (shortest version) = .ok (document version) := ofText?_shortest version
  rw [Command.Bump.stated, hparse]
  rfl

theorem editSettings_shortest (version old : Text) :
    Command.Bump.editSettings version (shortest old) = .ok (shortest version) := by
  have hparse : Library.parse (shortest old) = .ok (document old) := ofText?_shortest old
  rw [Command.Bump.editSettings, hparse]
  rfl

end Release.Settings

end Stylesheet
