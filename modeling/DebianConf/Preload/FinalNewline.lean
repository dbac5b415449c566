import DebianConf.Preload.Readahead

/-!
# A missing final newline

A last path without newline is moved down by one byte and gets no NUL, so `readahead` opens it
with its last byte twice. Appending the newline changes the list exactly then.
-/

namespace DebianConf.Preload

open DebianConf.Lib

/-- The file ends in a line whose dev and inode are complete and whose path, without newline
and NUL, runs to the end of the file. -/
def UnfinishedPath (content : List UInt8) : Prop :=
  ∃ records rest path, Lines content records rest ∧ Ending rest (some path) ∧ (0 : UInt8) ∉ path

theorem Ending.newline {text : List UInt8} (ending : Ending text none) :
    Ending (text ++ [10]) none := by
  have blank : AllBlank Blank [10] := by
    intro b member
    rw [List.mem_singleton.mp member]
    exact blank_newline
  cases ending with
  | blank blanks => exact .blank (blanks.append blank)
  | dev trailing => exact .dev (trailing.extend (by decide))
  | noInode first blanks => exact .noInode (first.append _) (blanks.append blank)
  | inode first trailing => exact .inode (first.append _) (trailing.extend (by decide))
  | noPath first second blanks =>
    exact .noPath (first.append _) (second.append _) (blanks.append blank)

/-- A newline completes the last line. -/
theorem Ending.complete {text path : List UInt8} (ending : Ending text (some path)) :
    ∃ record : Record, record.path = path ∧ Starts record (text ++ [10]) [] := by
  cases ending with
  | @path text₁ text₂ dev inode _ first second trailing =>
    exact ⟨⟨dev, inode, path⟩, rfl, _, _, first.append _, second.append _, trailing.close []⟩

theorem Ending.nonempty {text path : List UInt8} (ending : Ending text (some path)) :
    path ≠ [] := by
  cases ending with
  | path _ _ trailing =>
    obtain ⟨_, _, _, ⟨x, rest, rfl, _⟩, _⟩ := trailing
    exact List.cons_ne_nil x rest

/-- The doubled last byte shows exactly when no NUL hides it. -/
theorem doubled_eq_iff {path : List UInt8} (nonempty : path ≠ []) :
    upToNul (path ++ path.getLast?.toList) = upToNul path ↔ (0 : UInt8) ∈ path := by
  constructor
  · intro same
    by_contra no_nul
    have last : (0 : UInt8) ∉ path.getLast?.toList := by
      rw [List.getLast?_eq_some_getLast nonempty, Option.toList_some, List.mem_singleton]
      exact fun nul => no_nul (nul ▸ List.getLast_mem nonempty)
    rw [upToNul_eq_self no_nul, upToNul_eq_self (by simp [no_nul, last])] at same
    have length := congrArg List.length same
    rw [List.getLast?_eq_some_getLast nonempty, List.length_append] at length
    simp at length
  · exact fun nul => upToNul_append nul _

/-- A final newline leaves the opened paths as they are if and only if the file does not end
in a path without newline and NUL. -/
theorem final_newline_iff (content : List UInt8) :
    readahead content = readahead (content ++ [10]) ↔ ¬ UnfinishedPath content := by
  -- with the newline, the path at the end is one of the complete lines
  have completed : ∀ {records rest path}, Lines content records rest → Ending rest (some path) →
      (readahead content = readahead (content ++ [10]) ↔ (0 : UInt8) ∈ path) := by
    intro records rest path complete ending
    obtain ⟨record, rfl, starts⟩ := ending.complete
    have ended : Ending [] none := .blank (by simp [AllBlank])
    rw [readahead_eq complete ending, readahead_eq ((complete.append [10]).snoc starts) ended,
      List.map_append, opensAt, opensAt, List.append_nil, List.append_cancel_left_eq,
      List.map_singleton, List.cons.injEq, and_iff_left rfl, doubled_eq_iff ending.nonempty]
  constructor
  · intro same unfinished
    obtain ⟨records, rest, path, complete, ending, no_nul⟩ := unfinished
    exact no_nul ((completed complete ending).mp same)
  · intro finished
    obtain ⟨records, rest, tail, complete, ending⟩ := lines_exist content
    cases tail with
    | none =>
      rw [readahead_eq complete ending, readahead_eq (complete.append [10]) ending.newline]
    | some path =>
      rw [completed complete ending]
      by_contra no_nul
      exact finished ⟨records, rest, path, complete, ending, no_nul⟩

/-- `1 2 /x` without newline: `readahead` opens `/xx`. -/
theorem final_newline_fails : ¬ ∀ content : List UInt8, content.getLast? ≠ some 10 →
    ¬ 4096 ∣ content.length → readahead content = readahead (content ++ [10]) := by
  intro same
  have opened := same [49, 32, 50, 32, 47, 120] (by decide) (by decide)
  revert opened
  decide +kernel

end DebianConf.Preload
