import DebianConf.Preload.Grammar

/-!
# What `readahead` opens

The loop of `readahead` reads exactly the complete lines of the grammar and then, when the file
ends in a path without newline, that path.
-/

namespace DebianConf.Preload

open DebianConf.Lib

/-- A reader reads the lines `lines` one after another. -/
inductive Reads : Cursor → List Line → Cursor → Prop
  | nil {c : Cursor} : Reads c [] c
  | cons {c c' last : Cursor} {line : Line} {lines : List Line} :
      readLine c = (some line, c') → Reads c' lines last → Reads c (line :: lines) last

section
variable {c c' last : Cursor} {line : Line} {lines : List Line}

theorem Reads.append {lines' : List Line} (reads : Reads c lines c')
    (more : Reads c' lines' last) : Reads c (lines ++ lines') last := by
  induction reads with
  | nil => exact more
  | cons read _ ih => exact .cons read (ih more)

/-- Each line takes at least one byte. -/
theorem Reads.dtE (reads : Reads c lines last) :
    last.mem.length = c.mem.length ∧ c.dtE + lines.length ≤ last.dtE := by
  induction reads with
  | nil => simp
  | cons read _ ih =>
    have moved := readLine_some read
    rw [List.length_cons]
    exact ⟨by omega, by omega⟩

theorem Reads.dtS_lt (reads : Reads c lines last) (some : lines ≠ []) : last.dtS < last.dtE := by
  induction reads with
  | nil => exact absurd rfl some
  | @cons c c' last line lines read rest ih =>
    cases rest with
    | nil => exact (readLine_some read).2.2.1
    | cons _ _ => exact ih (List.cons_ne_nil _ _)

theorem readaheadLoop_none (stop : readLine c = (none, last)) : readaheadLoop c = ([], last) := by
  rw [readaheadLoop]
  split
  · next same =>
    rw [stop] at same
    cases same
    rfl
  · next same =>
    rw [stop] at same
    cases same

theorem readaheadLoop_some (read : readLine c = (some line, c')) :
    readaheadLoop c = (line :: (readaheadLoop c').1, (readaheadLoop c').2) := by
  rw [readaheadLoop]
  split
  · next same =>
    rw [read] at same
    cases same
  · next same =>
    rw [read] at same
    cases same
    rfl

/-- When the reader stops, the loop is over. -/
theorem Reads.readaheadLoop (reads : Reads c lines c') (stop : readLine c' = (none, last)) :
    readaheadLoop c = (lines, last) := by
  induction reads with
  | nil => exact readaheadLoop_none stop
  | cons read _ ih => rw [readaheadLoop_some read, ih stop]

/-- The reader reads `lines` as the complete lines `records`. -/
inductive LinesRead : Cursor → List Record → List Line → Cursor → Prop
  | nil {c : Cursor} : LinesRead c [] [] c
  | cons {c c' last : Cursor} {record : Record} {line : Line} {records : List Record}
      {lines : List Line} : readLine c = (some line, c') → LineRead c record line c' →
      LinesRead c' records lines last → LinesRead c (record :: records) (line :: lines) last

theorem lines_read {records : List Record} {rest : List UInt8}
    (complete : Lines c.unread records rest) :
    ∃ lines c', LinesRead c records lines c' ∧ c'.unread = rest := by
  induction records generalizing c with
  | nil =>
    cases complete
    exact ⟨[], c, .nil, rfl⟩
  | cons record records ih =>
    cases complete with
    | cons starts complete =>
      obtain ⟨line, c₁, read, unread, line_read⟩ := readLine_starts starts
      obtain ⟨lines, c', reads, ended⟩ := ih (unread.symm ▸ complete)
      exact ⟨line :: lines, c', .cons read line_read reads, ended⟩

theorem LinesRead.reads {records : List Record} (read : LinesRead c records lines last) :
    Reads c lines last := by
  induction read with
  | nil => exact .nil
  | cons read _ _ ih => exact .cons read ih

theorem LinesRead.paths {records : List Record} (read : LinesRead c records lines last) :
    lines.map Line.path = records.map fun record => upToNul record.path := by
  induction read with
  | nil => rfl
  | cons _ line_read _ ih => rw [List.map_cons, List.map_cons, line_read.path, ih]

end

/-- Reading an empty block gives no lines, so it does not matter that it is not mapped. -/
theorem readaheadLines_eq (content : List UInt8) :
    readaheadLines content = (readaheadLoop (Cursor.start content)).1 := by
  rw [readaheadLines]
  split
  · next empty =>
    obtain ⟨c', stop, -⟩ := readLine_nothing (c := Cursor.start content) empty
    rw [readaheadLoop_none stop]
  · rfl

/-- What `readahead` opens for an end of the file: a path without newline, with its last byte
twice. -/
def opensAt : Option (List UInt8) → List (List UInt8)
  | none => []
  | some path => [upToNul (path ++ path.getLast?.toList)]

/-- `readahead` opens the paths of the complete lines, and then what the end of the file
gives. -/
theorem readahead_eq {content rest : List UInt8} {records : List Record}
    {tail : Option (List UInt8)} (complete : Lines content records rest)
    (ending : Ending rest tail) :
    readahead content = records.map (fun record => upToNul record.path) ++ opensAt tail := by
  obtain ⟨lines, c, read, unread⟩ := lines_read (c := Cursor.start content) complete
  subst unread
  rw [readahead, readaheadLines_eq]
  cases tail with
  | none =>
    obtain ⟨last, stop, -⟩ := readLine_none ending
    rw [read.reads.readaheadLoop stop, read.paths, opensAt, List.append_nil]
  | some path =>
    obtain ⟨line, c', nonempty, last_read, ended, text, -⟩ := readLine_path ending
    obtain ⟨last, stop, -⟩ := readLine_nothing ended
    rw [(read.reads.append (.cons last_read .nil)).readaheadLoop stop, List.map_append, read.paths,
      List.map_singleton, text, opensAt, List.getLast?_eq_some_getLast nonempty, Option.toList_some]

end DebianConf.Preload
