import DebianConf.Preload.ProcessBlock

/-!
# What later calls do to a stored path

A stored path is a C string inside the block that is still being rewritten. It is safe below an
offset when its NUL is; `nextToken` writes below `dt_e` only when it moves a token without
delimiter that starts there, and then only to the byte before `dt_e`. That byte is the NUL of
the last path exactly when the token follows the newline of the last line directly.
-/

namespace DebianConf.Preload

open DebianConf.Lib

/-- The string at the path of `line` is the one that was returned, and ends in a NUL below
`bound`. -/
def Safe (mem : List UInt8) (bound : Nat) (line : Line) : Prop :=
  ∃ nul, line.dt ≤ nul ∧ nul < bound ∧ mem[nul]? = some 0 ∧ cstr mem line.dt = line.path

section
variable {mem mem' : List UInt8} {c c' : Cursor} {line : Line} {record : Record}

/-- A C string depends on the bytes up to a NUL only. -/
theorem cstr_take {p nul : Nat} (at_nul : mem[nul]? = some 0) (le : p ≤ nul) :
    cstr mem p = upToNul ((mem.take (nul + 1)).drop p) := by
  obtain ⟨inside, zero⟩ := List.getElem?_eq_some_iff.mp at_nul
  have member : (0 : UInt8) ∈ (mem.take (nul + 1)).drop p := by
    have index : p + (nul - p) = nul := by omega
    apply List.mem_of_getElem? (i := nul - p)
    rw [List.getElem?_drop, index, List.getElem?_take_of_lt (Nat.lt_succ_self nul), at_nul]
  have split : mem.drop p = (mem.take (nul + 1)).drop p ++ mem.drop (nul + 1) := by
    rw [← List.drop_append_of_le_length (by rw [List.length_take]; omega), List.take_append_drop]
  rw [cstr, split, upToNul_append member]

/-- Changes from `bound` on do not touch a path that is safe below it. -/
theorem Safe.keep {bound : Nat} (safe : Safe mem bound line)
    (same : mem'.take bound = mem.take bound) {bound' : Nat} (le : bound ≤ bound') :
    Safe mem' bound' line := by
  obtain ⟨nul, after, below, at_nul, text⟩ := safe
  have at_nul' : mem'[nul]? = some 0 := by
    rw [← List.getElem?_take_of_lt below, same, List.getElem?_take_of_lt below, at_nul]
  refine ⟨nul, after, by omega, at_nul', ?_⟩
  rw [cstr_take at_nul' after, take_of_take same below, ← cstr_take at_nul after, text]

theorem Safe.text {bound : Nat} (safe : Safe mem bound line) : cstr mem line.dt = line.path := by
  obtain ⟨_, _, _, _, text⟩ := safe
  exact text

/-- A path that was just read is safe below `dt_e`. -/
theorem LineRead.safe (read : LineRead c record line c') : Safe c'.mem c'.dtE line := by
  have dtE := read.dtE
  refine ⟨line.dt + record.path.length, Nat.le_add_right _ _, by omega, ?_, ?_⟩
  · rw [← List.getElem?_drop, read.drop, List.getElem?_append_right le_rfl]
    simp
  · rw [cstr, read.drop, upToNul_nul, read.path]

/-- With a NUL of its own the path is safe even below the byte before `dt_e`. -/
theorem LineRead.safe_of_nul (read : LineRead c record line c') (nul : (0 : UInt8) ∈ record.path) :
    Safe c'.mem (c'.dtE - 1) line := by
  obtain ⟨i, inside, zero⟩ := List.mem_iff_getElem.mp nul
  have dtE := read.dtE
  refine ⟨line.dt + i, Nat.le_add_right _ _, by omega, ?_, ?_⟩
  · rw [← List.getElem?_drop, read.drop, List.getElem?_append_left inside,
      List.getElem?_eq_getElem inside, zero]
  · rw [cstr, read.drop, upToNul_nul, read.path]

/-- All paths of complete lines are safe below `dt_e` after the last of them. -/
theorem LinesRead.safe {records : List Record} {lines : List Line}
    (read : LinesRead c records lines c') :
    c.dtE ≤ c'.dtE ∧ c'.mem.take c.dtE = c.mem.take c.dtE ∧
      ∀ line ∈ lines, Safe c'.mem c'.dtE line := by
  induction read with
  | nil => simp
  | @cons c c₁ last record line records lines _ line_read _ ih =>
    obtain ⟨moved, kept, safe⟩ := ih
    have after := line_read.after
    have dtE := line_read.dtE
    refine ⟨by omega, ?_, ?_⟩
    · rw [take_of_take kept (by omega), line_read.frame]
    · intro line' member
      rcases List.mem_cons.mp member with rfl | later
      · exact line_read.safe.keep kept moved
      · exact safe line' later

/-- A token moved onto the NUL of the last path prolongs it. -/
theorem LineRead.damaged (read : LineRead c record line c') (no_nul : (0 : UInt8) ∉ record.path)
    {tok : List UInt8} {last : UInt8} (token : IsToken Blank 32 tok)
    (moved : mem = c'.mem.take (c'.dtE - 1) ++ tok ++ [last]) : cstr mem line.dt ≠ line.path := by
  obtain ⟨b, tail, rfl, head⟩ := token.head
  have not_nul : (b != 0) = true := by
    simpa using fun nul : b = 0 => head (nul ▸ rfl)
  have dtE := read.dtE
  have inside := c'.dtE_le
  have front : (c'.mem.take (c'.dtE - 1)).drop line.dt = record.path := by
    have index : c'.dtE - 1 - line.dt = record.path.length := by omega
    rw [List.drop_take, read.drop, index, List.take_left]
  have string : mem.drop line.dt = record.path ++ b :: (tail ++ [last]) := by
    rw [moved, List.append_assoc, List.drop_append_of_le_length (by rw [List.length_take]; omega),
      front, List.cons_append]
  rw [cstr, string, read.path, upToNul_append_of_no_nul no_nul, upToNul_eq_self no_nul, upToNul,
    List.takeWhile_cons, if_pos not_nul]
  intro same
  have length := congrArg List.length same
  simp at length

end

/-- The file ends in a dev token without delimiter that follows the newline of a complete line
directly, and the path of this line has no NUL. -/
def TokenAfterNewline (content : List UInt8) : Prop :=
  ∃ records record tok, Lines content (records ++ [record]) tok ∧ (0 : UInt8) ∉ record.path ∧
    IsToken Blank 32 tok

/-- The complete lines of a file, read from its start, with the last of them apart. -/
theorem read_last {content rest : List UInt8} {records : List Record} {record : Record}
    (complete : Lines content (records ++ [record]) rest) :
    ∃ lines c line c', LinesRead (Cursor.start content) records lines c ∧
      readLine c = (some line, c') ∧ LineRead c record line c' ∧ c'.unread = rest := by
  obtain ⟨mid, front, starts⟩ := complete.last
  obtain ⟨lines, c, read, unread⟩ := lines_read (c := Cursor.start content) front
  obtain ⟨line, c', line_read, ended, last_read⟩ := readLine_starts (unread.symm ▸ starts)
  exact ⟨lines, c, line, c', read, line_read, last_read, ended⟩

section
variable {content rest : List UInt8} {records : List Record}

/-- An end without a path that is no token keeps all paths. -/
theorem kept_of_apart (complete : Lines content records rest) (ending : Ending rest none)
    (apart : ¬ IsToken Blank 32 rest) : ∀ line ∈ (readaheadLoop (Cursor.start content)).1,
      cstr (readaheadLoop (Cursor.start content)).2.mem line.dt = line.path := by
  obtain ⟨lines, c, read, unread⟩ := lines_read (c := Cursor.start content) complete
  subst unread
  obtain ⟨last, stop, -, kept⟩ := readLine_none ending
  rw [read.reads.readaheadLoop stop]
  intro line member
  exact ((read.safe.2.2 line member).keep (kept apart) le_rfl).text

/-- A path without newline is read last, and moved away from the paths before it. -/
theorem kept_of_path {path : List UInt8} (complete : Lines content records rest)
    (ending : Ending rest (some path)) : ∀ line ∈ (readaheadLoop (Cursor.start content)).1,
      cstr (readaheadLoop (Cursor.start content)).2.mem line.dt = line.path := by
  obtain ⟨lines, c, read, unread⟩ := lines_read (c := Cursor.start content) complete
  subst unread
  obtain ⟨last_line, c', nonempty, last_read, ended, -, text, kept⟩ := readLine_path ending
  obtain ⟨last, stop, same⟩ := readLine_nothing ended
  rw [(read.reads.append (.cons last_read .nil)).readaheadLoop stop]
  intro line member
  show cstr last.mem line.dt = line.path
  rw [same]
  rcases List.mem_append.mp member with before | here
  · exact ((read.safe.2.2 line before).keep kept le_rfl).text
  · rw [List.mem_singleton.mp here, text]

/-- A NUL in the path of the last line protects it from whatever follows. -/
theorem kept_of_nul {record : Record} (complete : Lines content (records ++ [record]) rest)
    (nul : (0 : UInt8) ∈ record.path) (ending : Ending rest none) :
    ∀ line ∈ (readaheadLoop (Cursor.start content)).1,
      cstr (readaheadLoop (Cursor.start content)).2.mem line.dt = line.path := by
  obtain ⟨lines, c, last_line, c', read, line_read, last_read, unread⟩ := read_last complete
  subst unread
  obtain ⟨last, stop, kept, -⟩ := readLine_none ending
  have after := last_read.after
  have dtE := last_read.dtE
  rw [(read.reads.append (.cons line_read .nil)).readaheadLoop stop]
  intro line member
  rcases List.mem_append.mp member with before | here
  · have safe := (read.safe.2.2 line before).keep last_read.frame (by omega : c.dtE ≤ c'.dtE - 1)
    exact (safe.keep kept le_rfl).text
  · rw [List.mem_singleton.mp here]
    exact ((last_read.safe_of_nul nul).keep kept le_rfl).text

end

/-- After the loop every path still reads as it was returned, if and only if the file does not
end in a token right after the newline of a path without NUL. -/
theorem readaheadLoop_kept_iff (content : List UInt8) :
    (∀ line ∈ (readaheadLoop (Cursor.start content)).1,
      cstr (readaheadLoop (Cursor.start content)).2.mem line.dt = line.path) ↔
    ¬ TokenAfterNewline content := by
  constructor
  · intro kept after_newline
    obtain ⟨records, record, tok, complete, no_nul, token⟩ := after_newline
    obtain ⟨lines, c, line, c', read, line_read, last_read, unread⟩ := read_last complete
    have dtE := last_read.dtE
    obtain ⟨last, b, stop, moved⟩ := readLine_adjacent (c := c') (unread.symm ▸ token) (by omega)
    rw [(read.reads.append (.cons line_read .nil)).readaheadLoop stop] at kept
    rw [unread] at moved
    exact last_read.damaged no_nul token moved (kept line (by simp))
  · intro intact
    obtain ⟨records, rest, tail, complete, ending⟩ := lines_exist content
    cases tail with
    | some path => exact kept_of_path complete ending
    | none =>
      by_cases token : IsToken Blank 32 rest
      · rcases List.eq_nil_or_concat records with rfl | ⟨front, record, rfl⟩
        · cases complete
          obtain ⟨last, stop, -⟩ := readLine_none (c := Cursor.start content) ending
          rw [readaheadLoop_none stop]
          simp
        · rw [List.concat_eq_append] at complete
          by_cases nul : (0 : UInt8) ∈ record.path
          · exact kept_of_nul complete nul ending
          · exact absurd ⟨front, record, rest, complete, nul, token⟩ intact
      · exact kept_of_apart complete ending token

/-- The stored paths read after `processBlock` as when they were returned, if and only if the
file is short or does not end in a dev token right after the newline of a path without NUL. -/
theorem stored_paths_kept_iff (content : List UInt8) :
    (∃ q, loadFile content = some q ∧
      ∀ vec ∈ q.fileDescs, ∀ fd ∈ vec, fd.text q.cursor.mem = fd.taken) ↔
    (content.length < 50 ∨ ¬ TokenAfterNewline content) := by
  rw [← readaheadLoop_kept_iff]
  by_cases long : 50 ≤ content.length
  · obtain ⟨q, loaded, stored, cursor, -⟩ := loadFile_long long
    have kept : (∀ vec ∈ q.fileDescs, ∀ fd ∈ vec, fd.text q.cursor.mem = fd.taken) ↔
        ∀ line ∈ (readaheadLoop (Cursor.start content)).1,
          cstr (readaheadLoop (Cursor.start content)).2.mem line.dt = line.path := by
      rw [← List.forall_mem_flatten, stored, List.forall_mem_map, cursor, readaheadLines_eq]
      rfl
    rw [← kept, or_iff_right (Nat.not_lt_of_le long)]
    constructor
    · intro given
      rcases given with ⟨q', loaded', same⟩
      obtain rfl : q = q' := Option.some.inj (loaded.symm.trans loaded')
      exact same
    · exact fun same => ⟨q, loaded, same⟩
  · obtain ⟨q, loaded, stored⟩ := loadFile_short (Nat.lt_of_not_le long)
    refine ⟨fun _ => Or.inl (Nat.lt_of_not_le long), fun _ => ⟨q, loaded, ?_⟩⟩
    intro vec member fd inside
    have none : fd ∈ q.fileDescs.flatten := List.mem_flatten.mpr ⟨vec, member, inside⟩
    rw [stored] at none
    cases none

/-- `1 2 /aa…a`, a newline and `3`: after the last call the stored path ends in `a33`. -/
theorem stored_path_damaged : ¬ ∀ content : List UInt8, content ≠ [] →
    ∃ q, loadFile content = some q ∧
      ∀ vec ∈ q.fileDescs, ∀ fd ∈ vec, fd.text q.cursor.mem = fd.taken := by
  intro kept
  obtain ⟨q, loaded, same⟩ :=
    kept ([49, 32, 50, 32, 47] ++ List.replicate 45 97 ++ [10, 51]) (by simp)
  have damaged : (loadFile ([49, 32, 50, 32, 47] ++ List.replicate 45 97 ++ [10, 51])).map
      (fun q => q.fileDescs.flatten.all fun fd => fd.text q.cursor.mem == fd.taken) =
        some false := by decide +kernel
  rw [loaded, Option.map_some, Option.some.injEq, List.all_eq_false] at damaged
  obtain ⟨fd, member, differs⟩ := damaged
  obtain ⟨vec, vec_member, inside⟩ := List.mem_flatten.mp member
  exact differs (by simpa using same vec vec_member fd inside)

end DebianConf.Preload
