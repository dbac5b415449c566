import DebianConf.Preload.Readahead

/-!
# The two readers of the list

`processBlock` reads the same lines as `readahead`, but into vectors whose length is guessed
from the bytes that are left. A vector without room leaves `dt` as it was: after the first
lines it is not null and the loop goes on, but a first vector without room ends it.
-/

namespace DebianConf.Preload

open DebianConf.Lib

/-- The record `processBlock` stores for a line. -/
def Line.fileDesc (line : Line) : FileDesc :=
  ⟨(strtoul line.dev).setWidth 32, strtoul line.inode, 0, some line.dt, line.path⟩

section
variable {c c' : Cursor} {line : Line} {lines : List Line}

/-- The body of the inner loop makes the same three calls as `readahead`. -/
theorem storeLine_some (read : readLine c = (some line, c')) :
    storeLine .zero c = (line.fileDesc, some line.dt, c') := by
  obtain ⟨_, _, _, _, first, second, third, dev, inode, path⟩ := readLine_tokens read
  unfold storeLine
  simp only [first, second, third, ← dev, ← inode, ← path]
  rfl

theorem storeLine_none (fd : FileDesc) (stop : readLine c = (none, c')) :
    ∃ fd', storeLine fd c = (fd', none, c') := by
  unfold readLine at stop
  unfold storeLine
  split at stop
  · cases stop
    exact ⟨_, rfl⟩
  · split at stop
    · cases stop
      exact ⟨_, rfl⟩
    · split at stop
      · cases stop
        exact ⟨_, rfl⟩
      · cases stop

theorem last_dt (line : Line) (lines : List Line) (dt : Option Nat) :
    ((line :: lines).getLast?.map Line.dt).or dt = (lines.getLast?.map Line.dt).or line.dt := by
  cases lines with
  | nil => rfl
  | cons next rest =>
    rw [List.getLast?_cons_cons, List.getLast?_eq_some_getLast (List.cons_ne_nil next rest)]
    rfl

/-- The inner loop reads lines until the reader stops or the vector is full. -/
theorem fillVector_cases (room : Nat) (dt : Option Nat) (c : Cursor) :
    (∃ lines last c' vec, Reads c lines last ∧ readLine last = (none, c') ∧
      fillVector (List.replicate room .zero) dt c = (vec, lines.length, none, c') ∧
      vec.take lines.length = lines.map Line.fileDesc) ∨
    ∃ lines c', Reads c lines c' ∧ lines.length = room ∧
      fillVector (List.replicate room .zero) dt c =
        (lines.map Line.fileDesc, room, (lines.getLast?.map Line.dt).or dt, c') := by
  induction room generalizing dt c with
  | zero => exact Or.inr ⟨[], c, .nil, rfl, rfl⟩
  | succ room ih =>
    rw [List.replicate_succ]
    cases read : readLine c with
    | mk result c₁ =>
      cases result with
      | none =>
        obtain ⟨fd, store⟩ := storeLine_none .zero read
        exact Or.inl ⟨[], c, c₁, _, .nil, read, by simp only [fillVector, store]; rfl, rfl⟩
      | some line =>
        have store := storeLine_some read
        rcases ih (some line.dt) c₁ with ⟨lines, last, c', vec, reads, stop, fill, stored⟩ |
          ⟨lines, c', reads, full, fill⟩
        · refine Or.inl ⟨line :: lines, last, c', line.fileDesc :: vec, .cons read reads, stop,
            ?_, ?_⟩
          · simp only [fillVector, store, fill]
            rfl
          · simp [stored]
        · refine Or.inr ⟨line :: lines, c', .cons read reads, by simp [full], ?_⟩
          simp only [fillVector, store, fill, List.map_cons, last_dt]

/-- The state the outer loop needs to reach the end of the block: the last line is still at
hand, or there is room for one. -/
def CanGoOn (lineSize : Nat) (dt : Option Nat) (c : Cursor) : Prop :=
  (0 < lineSize ∧ dt.isSome = true ∧ c.dtS < c.dtE) ∨
    (1 < lineSize ∧ lineSize ≤ c.mem.length - c.dtS)

/-- After a full vector the loop can go on with half the line size. In particular a vector for
lines of one byte never fills up. -/
theorem CanGoOn.half {lineSize : Nat} {dt : Option Nat} (ready : CanGoOn lineSize dt c)
    (reads : Reads c lines c') (full : lines.length = (c.mem.length - c.dtS) / lineSize) :
    ∃ dt', (lines.getLast?.map Line.dt).or dt = some dt' ∧
      CanGoOn (lineSize / 2) (some dt') c' := by
  obtain ⟨same, moved⟩ := reads.dtE
  have inside := c'.dtE_le
  have behind : c'.dtS < c'.dtE := by
    cases reads with
    | nil =>
      rcases ready with ⟨_, _, behind⟩ | ⟨large, room⟩
      · exact behind
      · have positive := Nat.div_pos room (by omega)
        rw [← full] at positive
        exact absurd positive (by simp)
    | cons read rest => exact Reads.dtS_lt (.cons read rest) (List.cons_ne_nil _ _)
  have two : 1 < lineSize := by
    rcases ready with ⟨positive, _, before⟩ | ⟨large, _⟩
    · by_contra small
      have one : lineSize = 1 := by omega
      rw [one, Nat.div_one] at full
      omega
    · exact large
  have held : ∃ dt', (lines.getLast?.map Line.dt).or dt = some dt' := by
    cases nonempty : lines.getLast? with
    | some line => exact ⟨line.dt, rfl⟩
    | none =>
      rw [List.getLast?_eq_none_iff] at nonempty
      rcases ready with ⟨_, given, _⟩ | ⟨large, room⟩
      · exact Option.isSome_iff_exists.mp given
      · have positive := Nat.div_pos room (by omega)
        rw [← full, nonempty] at positive
        exact absurd positive (by simp)
  obtain ⟨dt', some⟩ := held
  exact ⟨dt', some, Or.inl ⟨by omega, rfl, behind⟩⟩

/-- The outer loop reads all lines of the block, and never divides by zero. Each vector holds
exactly the records of the lines read into it, and there are at most as many vectors as the
line size can be halved. -/
theorem processLoop_spec (bound : Nat) {lineSize : Nat} (small : lineSize < 2 ^ bound)
    {dt : Option Nat} {p : Parser} (ready : CanGoOn lineSize dt p.cursor) :
    ∃ (groups : List (List Line)) (last : Cursor) (q : Parser),
      Reads p.cursor groups.flatten last ∧ readLine last = (none, q.cursor) ∧
      processLoop lineSize dt p = some q ∧
      q.fileDescs = p.fileDescs ++ groups.map (List.map Line.fileDesc) ∧
      q.fileDescCount = p.fileDescCount + groups.flatten.length ∧ groups ≠ [] ∧
      groups.length ≤ bound := by
  induction bound generalizing lineSize dt p with
  | zero =>
    rcases ready with ⟨positive, _⟩ | ⟨large, _⟩ <;> omega
  | succ bound ih =>
    have positive : lineSize ≠ 0 := by
      rcases ready with ⟨positive, _⟩ | ⟨large, _⟩ <;> omega
    rw [processLoop, if_neg positive]
    rcases fillVector_cases ((p.cursor.mem.length - p.cursor.dtS) / lineSize) dt p.cursor with
      ⟨lines, last, c', vec, reads, stop, fill, stored⟩ | ⟨lines, c', reads, full, fill⟩
    · simp only [fill]
      exact ⟨[lines], last, _, by simpa using reads, stop, rfl, by simp [stored], by simp, by simp,
        by simp⟩
    · obtain ⟨dt', held, ready'⟩ := ready.half reads full
      simp only [fill, held]
      obtain ⟨groups, last, q, reads', stop, loop, stored, count, -, few⟩ :=
        ih (p := ⟨c', p.fileDescs ++ [lines.map Line.fileDesc], p.fileDescCount +
            (p.cursor.mem.length - p.cursor.dtS) / lineSize⟩)
          (by rw [pow_succ] at small; omega) ready'
      refine ⟨lines :: groups, last, q, ?_, stop, loop, ?_, ?_, List.cons_ne_nil _ _, ?_⟩
      · rw [List.flatten_cons]
        exact reads.append reads'
      · simp [stored]
      · rw [count, List.flatten_cons, List.length_append, full]
        exact Nat.add_assoc _ _ _
      · simpa using few

/-- A first vector without room ends the outer loop. -/
theorem processLoop_full {p : Parser} (short : p.cursor.mem.length < 50) :
    processLoop 50 none p =
      some ⟨p.cursor, p.fileDescs ++ [[]], p.fileDescCount⟩ := by
  have room : (p.cursor.mem.length - p.cursor.dtS) / 50 = 0 :=
    Nat.div_eq_of_lt (by omega)
  rw [processLoop, if_neg (by decide)]
  simp only [room, List.replicate_zero, fillVector]
  rfl

/-- `processBlock` always ends. It makes at most six vectors, which hold the records of lines
read one after another; from 50 bytes on it reads until the reader stops. -/
theorem processBlock_spec (content : List UInt8) (fileDescs : List (List FileDesc)) (count : Nat) :
    ∃ (groups : List (List Line)) (last : Cursor) (q : Parser),
      Reads (Cursor.start content) groups.flatten last ∧
      (50 ≤ content.length → readLine last = (none, q.cursor)) ∧
      processBlock ⟨Cursor.start content, fileDescs, count⟩ = some q ∧
      q.fileDescs = fileDescs ++ groups.map (List.map Line.fileDesc) ∧
      q.fileDescCount = count + groups.flatten.length ∧ groups ≠ [] ∧ groups.length ≤ 6 := by
  rw [processBlock]
  by_cases long : 50 ≤ content.length
  · have ready : CanGoOn 50 none (Cursor.start content) := Or.inr ⟨by decide, long⟩
    obtain ⟨groups, last, q, reads, stop, rest⟩ := processLoop_spec 6
      (p := ⟨Cursor.start content, fileDescs, count⟩) (by decide) ready
    exact ⟨groups, last, q, reads, fun _ => stop, rest⟩
  · exact ⟨[[]], Cursor.start content, _, .nil, fun large => absurd large long,
      processLoop_full (Nat.lt_of_not_le long), rfl, rfl, by simp, by simp⟩

end

/-! ## The files both readers agree on -/

/-- From 50 bytes on, `loadFile` stores exactly the lines `readahead` reads and stops at the
same place. -/
theorem loadFile_long {content : List UInt8} (long : 50 ≤ content.length) :
    ∃ q, loadFile content = some q ∧
      q.fileDescs.flatten = (readaheadLines content).map Line.fileDesc ∧
      q.cursor = (readaheadLoop (Cursor.start content)).2 ∧
      q.fileDescCount = (readaheadLines content).length := by
  have nonempty : content ≠ [] := by
    rintro rfl
    simp at long
  obtain ⟨groups, last, q, reads, stop, loop, stored, count, -⟩ := processBlock_spec content [] 0
  have same := reads.readaheadLoop (stop long)
  refine ⟨q, ?_, ?_, by rw [same], ?_⟩
  · rw [loadFile, if_neg nonempty]
    exact loop
  · rw [stored, readaheadLines_eq, same, List.nil_append, List.map_flatten]
  · rw [count, readaheadLines_eq, same]
    exact Nat.zero_add _

/-- Below 50 bytes the first vector has no room, and `loadFile` stores nothing. -/
theorem loadFile_short {content : List UInt8} (short : content.length < 50) :
    ∃ q, loadFile content = some q ∧ q.fileDescs.flatten = [] := by
  rw [loadFile]
  split
  · exact ⟨_, rfl, rfl⟩
  · exact ⟨_, processLoop_full short, rfl⟩

/-- Somewhere in the file come a byte that is not blank, a space, a byte that is not blank, a
space and a byte that is not blank: enough for dev, inode and a path. -/
def HasLine (content : List UInt8) : Prop :=
  ∃ x y z, ¬ Blank x ∧ ¬ Blank y ∧ ¬ Blank z ∧ [x, 32, y, 32, z].Sublist content

theorem hasLine_of_fields {content text₁ text₂ dev inode : List UInt8}
    (first : Field Blank 32 content dev text₁) (second : Field Blank 32 text₁ inode text₂)
    (more : ¬ AllBlank Blank text₂) : HasLine content := by
  obtain ⟨z, head_z, sub_z⟩ := not_allBlank_iff.mp more
  obtain ⟨y, head_y, sub_y⟩ := second.sublist sub_z
  obtain ⟨x, head_x, sub_x⟩ := first.sublist sub_y
  exact ⟨x, y, z, head_x, head_y, head_z, sub_x⟩

theorem fields_of_hasLine {content : List UInt8} (has_line : HasLine content) :
    ∃ dev text₁ inode text₂, Field Blank 32 content dev text₁ ∧
      Field Blank 32 text₁ inode text₂ ∧ ¬ AllBlank Blank text₂ := by
  obtain ⟨x, y, z, head_x, head_y, head_z, sub⟩ := has_line
  obtain ⟨dev, text₁, first, sub₁⟩ := field_of_sublist blank_space head_x sub
  obtain ⟨inode, text₂, second, sub₂⟩ := field_of_sublist blank_space head_y sub₁
  exact ⟨dev, text₁, inode, text₂, first, second, not_allBlank_iff.mpr ⟨z, head_z, sub₂⟩⟩

/-- `readahead` opens something if and only if the file has a line. -/
theorem readahead_ne_nil_iff (content : List UInt8) : readahead content ≠ [] ↔ HasLine content := by
  constructor
  · intro opens
    obtain ⟨records, rest, tail, complete, ending⟩ := lines_exist content
    cases complete with
    | cons starts _ =>
      obtain ⟨text₁, text₂, first, second, third⟩ := starts
      exact hasLine_of_fields first second third.not_allBlank
    | nil =>
      cases tail with
      | none => exact absurd (readahead_eq .nil ending) opens
      | some path =>
        cases ending with
        | path first second trailing =>
          exact hasLine_of_fields first second trailing.not_allBlank
  · intro has_line
    obtain ⟨dev, text₁, inode, text₂, first, second, more⟩ := fields_of_hasLine has_line
    rcases field_cases blank_newline text₂ with blanks | ⟨path, rest, third⟩ | ⟨path, trailing⟩
    · exact absurd blanks more
    · obtain ⟨records, last, tail, complete, ending⟩ := lines_exist rest
      have starts : Starts ⟨dev, inode, path⟩ content rest := ⟨_, _, first, second, third⟩
      rw [readahead_eq (.cons starts complete) ending]
      simp
    · rw [readahead_eq .nil (.path first second trailing)]
      simp [opensAt]

/-- `loadFile` stores the paths that `readahead` opens if and only if the file has at least 50
bytes or no line at all. Both get the same pointers into the same bytes, so that this does not
depend on what lies behind the block. -/
theorem readers_agree_iff (content : List UInt8) :
    (∃ q, loadFile content = some q ∧
      q.fileDescs.flatten.map FileDesc.taken = readahead content) ↔
    (50 ≤ content.length ∨ ¬ HasLine content) := by
  by_cases long : 50 ≤ content.length
  · obtain ⟨q, loaded, stored, -⟩ := loadFile_long long
    refine ⟨fun _ => Or.inl long, fun _ => ⟨q, loaded, ?_⟩⟩
    rw [stored, List.map_map]
    rfl
  · obtain ⟨q, loaded, stored⟩ := loadFile_short (Nat.lt_of_not_le long)
    rw [← readahead_ne_nil_iff, not_not]
    constructor
    · intro given
      rcases given with ⟨q', loaded', same⟩
      obtain rfl : q = q' := Option.some.inj (loaded.symm.trans loaded')
      rw [stored] at same
      exact Or.inr same.symm
    · rintro (large | nothing)
      · exact absurd large long
      · exact ⟨q, loaded, by rw [stored, nothing]; rfl⟩

/-- `1 2 /x` and a newline: `readahead` opens `/x`, `loadFile` stores nothing. -/
theorem readers_disagree : ¬ ∀ content : List UInt8, content ≠ [] →
    ∃ q, loadFile content = some q ∧
      q.fileDescs.flatten.map FileDesc.taken = readahead content := by
  intro agree
  obtain ⟨q, loaded, same⟩ := agree [49, 32, 50, 32, 47, 120, 10] (by decide)
  have stored : (loadFile [49, 32, 50, 32, 47, 120, 10]).map
      (fun q => q.fileDescs.flatten.map FileDesc.taken) = some [] := by decide +kernel
  have opened : readahead [49, 32, 50, 32, 47, 120, 10] = [[47, 120]] := by decide +kernel
  rw [loaded, Option.map_some, same, opened] at stored
  cases stored

end DebianConf.Preload
