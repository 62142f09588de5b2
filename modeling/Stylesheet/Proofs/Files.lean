import Stylesheet.Files.Tree

/-!
# Writing a file

Writing puts other bytes in one file and changes nothing else, so a text names what it named before.
-/

namespace Stylesheet.Files

/-! ## What is at a place -/

/-- What is at the place of a file after a write there. -/
def Node.rewrite (bytes : ByteArray) : Node → Node
  | file _ => file bytes
  | folder => folder

/-- What a text names after a write at a place. -/
def Target.rewrite (p : Place) (bytes : ByteArray) : Target → Target
  | file q old => file q (if q = p then bytes else old)
  | t => t

variable (fs : Files) (p : Place) (bytes : ByteArray)

theorem lookup_write (q : Place) :
    (fs.write p bytes).files.lookup q =
      (fs.files.lookup q).map fun old => if q = p then bytes else old := by
  obtain ⟨files, folders⟩ := fs
  simp only [write]
  induction files with
  | nil => rfl
  | cons f files ih =>
    rw [List.map_cons, List.lookup_cons, List.lookup_cons, ih]
    by_cases hq : q = f.1
    · simp [hq]
    · simp [beq_eq_false_iff_ne.mpr hq]

theorem isFolder_write (q : Place) : (fs.write p bytes).isFolder q = fs.isFolder q := by
  simp [isFolder, write, Function.comp_def]

theorem node?_write (q : Place) :
    (fs.write p bytes).node? q =
      if q = p then (fs.node? q).map (Node.rewrite bytes) else fs.node? q := by
  unfold node?
  rw [lookup_write, isFolder_write]
  cases fs.files.lookup q with
  | some old => by_cases hq : q = p <;> simp [hq, Node.rewrite]
  | none => by_cases hq : q = p <;> cases fs.isFolder q <;> simp [hq, Node.rewrite]

/-- Of two writes in one place the second one is left. -/
theorem write_write (bytes' : ByteArray) : (fs.write p bytes).write p bytes' = fs.write p bytes' := by
  simp only [write, List.map_map]
  congr 2
  funext f
  by_cases hf : f.1 = p <;> simp [hf]

/-! ## What a text names -/

theorem follow_write (q : Place) (names : List Text) :
    (fs.write p bytes).follow q names = (fs.follow q names).rewrite p bytes := by
  induction names generalizing q with
  | nil =>
    rw [follow, follow, node?_write]
    rcases fs.node? q with _ | _ | _ <;> by_cases hq : q = p <;>
      simp [hq, Node.rewrite, Target.rewrite]
  | cons name names ih =>
    -- What is at a place changes its bytes only, so the same way is taken.
    have hway : (fs.write p bytes).node? q = fs.node? q ∨
        ∃ old, fs.node? q = some (.file old) ∧ (fs.write p bytes).node? q = some (.file bytes) := by
      rw [node?_write]
      rcases fs.node? q with _ | _ | _ <;> by_cases hq : q = p <;> simp [hq, Node.rewrite]
    rcases hway with hnode | ⟨old, hnode, hnode'⟩
    · rw [follow, follow, hnode]
      rcases fs.node? q with _ | _ | _
      · rfl
      · rfl
      · simp only [ih]
        repeat' split
        all_goals rfl
    · rw [follow, follow, hnode, hnode']
      rfl

theorem find_write (t : Text) :
    (fs.write p bytes).find t = (fs.find t).rewrite p bytes := by
  unfold find
  split
  · rfl
  · split <;> rfl
  · exact follow_write fs p bytes _ _

variable {fs p bytes} {names : List Text} {q : Place} {old : ByteArray}

/-- Names that neither stay nor go up lead straight down. -/
theorem place_of_follow (hplain : ∀ name ∈ names, name ≠ [] ∧ name ≠ ['.'] ∧ name ≠ ['.', '.'])
    (h : fs.follow p names = .file q old) : q = p ++ names := by
  induction names generalizing p with
  | nil =>
    unfold follow at h
    split at h
    · cases h
      exact (List.append_nil _).symm
    · cases h
    · cases h
  | cons name names ih =>
    obtain ⟨⟨hne, hdot, hdots⟩, hrest⟩ := List.forall_mem_cons.mp hplain
    unfold follow at h
    split at h
    · cases h
    · cases h
    · rw [if_neg (not_or.mpr ⟨hne, hdot⟩), if_neg hdots] at h
      rw [ih hrest h, List.append_assoc, List.singleton_append]

theorem place_of_find {t : Text} (htop : t.head? ≠ some '/')
    (hplain : ∀ name ∈ Text.pieces '/' t, name ≠ [] ∧ name ≠ ['.'] ∧ name ≠ ['.', '.'])
    (h : fs.find t = .file q old) : q = Text.pieces '/' t := by
  unfold find at h
  split at h
  · cases h
  · exact absurd rfl htop
  · exact place_of_follow hplain h

/-- A text that names another file names it as before. -/
theorem find_write_of_ne {t : Text} (h : ∀ q old, fs.find t = .file q old → q ≠ p) :
    (fs.write p bytes).find t = fs.find t := by
  rw [find_write]
  rcases htarget : fs.find t with ⟨q, old⟩ | _ | _ | _
  · rw [Target.rewrite, if_neg (h q old htarget)]
  · rfl
  · rfl
  · rfl

end Stylesheet.Files
