import DebianConf.Preload.SortRoundTrip

/-!
# Malformed lines

`readahead` splits the list by fields, not by lines: a dev or inode field runs on over newlines to
the next space. A malformed line does no harm when the fields it leaves open are taken up by the
next line as part of its dev. Otherwise the next well-formed line loses its path.
-/

namespace DebianConf.Preload

open DebianConf.Lib

/-- A decimal number: at least one digit. -/
structure Decimal (text : List UInt8) : Prop where
  nonempty : text ≠ []
  digits : ∀ b ∈ text, isDigit b = true

/-- A well-formed line: decimal dev, a space, decimal inode, a space and a path. -/
structure GoodLine where
  dev : List UInt8
  inode : List UInt8
  path : List UInt8
  dev_decimal : Decimal dev
  inode_decimal : Decimal inode
  path_printable : Printable path

/-- A line of the list file; a malformed one is any text without newline. -/
inductive Entry where
  | good (line : GoodLine)
  | malformed (text : List UInt8) (no_newline : (10 : UInt8) ∉ text)

/-- The bytes before the path of a well-formed line. -/
def GoodLine.front (line : GoodLine) : List UInt8 := line.dev ++ 32 :: (line.inode ++ [32])

/-- The bytes of a line with its newline. -/
def Entry.bytes : Entry → List UInt8
  | .good line => line.front ++ line.path ++ [10]
  | .malformed text _ => text ++ [10]

/-- The file with these lines. -/
def fileOf (lines : List Entry) : List UInt8 := lines.flatMap Entry.bytes

/-- The paths of the well-formed lines with the places where they stand, for lines that start
at `start`. -/
def ownPaths : Nat → List Entry → List (Nat × List UInt8)
  | _, [] => []
  | start, .good line :: lines =>
    (start + line.front.length, line.path) ::
      ownPaths (start + (Entry.good line).bytes.length) lines
  | start, .malformed text no_newline :: lines =>
    ownPaths (start + (Entry.malformed text no_newline).bytes.length) lines

/-- The pointers `readahead` passes to `open`, with the strings they point to. -/
def opened (content : List UInt8) : List (Nat × List UInt8) :=
  (readaheadLines content).map fun line => (line.dt, line.path)

/-- After `text` the reader is between two lines or inside a dev field: `text` is complete lines
(a dev and an inode field, each up to a space, and a path up to a newline) followed by blanks
only, or by blanks and a token without a space. -/
def InStep (text : List UInt8) : Prop :=
  ∃ records rest, Lines text records rest ∧
    (AllBlank Blank rest ∨ ∃ dev, Trailing Blank 32 rest dev)

/-- Before each well-formed line, the malformed lines since the well-formed line before it (or
since the start of the file), taken together, leave the reader in step. `before` is the text of
the malformed lines so far. -/
def Resynchronised : List UInt8 → List Entry → Prop
  | _, [] => True
  | before, .good _ :: lines => InStep before ∧ Resynchronised [] lines
  | before, .malformed text no_newline :: lines =>
    Resynchronised (before ++ (Entry.malformed text no_newline).bytes) lines

/-! ## A well-formed line after any text -/

theorem Decimal.token {text : List UInt8} (decimal : Decimal text) : IsToken Blank 32 text := by
  obtain ⟨b, rest, rfl⟩ := List.exists_cons_of_ne_nil decimal.nonempty
  refine ⟨⟨b, rest, rfl, fun blank => ?_⟩,
    fun space => absurd (decimal.digits 32 space) (by decide)⟩
  have range := isDigit_iff.mp (decimal.digits b List.mem_cons_self)
  have small := isBlank_iff.mp blank
  omega

theorem Decimal.no_newline {text : List UInt8} (decimal : Decimal text) : (10 : UInt8) ∉ text :=
  fun newline => absurd (decimal.digits 10 newline) (by decide)

theorem Printable.token {path : List UInt8} (printable : Printable path) :
    IsToken Blank 10 path :=
  ⟨printable.head, printable.no_newline⟩

theorem GoodLine.bytes_append (line : GoodLine) (more : List UInt8) :
    (Entry.good line).bytes ++ more =
      line.dev ++ 32 :: (line.inode ++ 32 :: (line.path ++ 10 :: more)) := by
  simp [Entry.bytes, GoodLine.front]

theorem GoodLine.bytes_length (line : GoodLine) :
    (Entry.good line).bytes.length = line.front.length + line.path.length + 1 := by
  simp only [Entry.bytes, List.length_append, List.length_singleton]

/-- The end of a well-formed line is a path for a reader that is past its dev already. -/
theorem GoodLine.tail_token (line : GoodLine) :
    IsToken Blank 10 (line.inode ++ 32 :: line.path) := by
  obtain ⟨b, rest, shape, head⟩ := line.inode_decimal.token.head
  refine ⟨⟨b, rest ++ 32 :: line.path, by rw [shape, List.cons_append], head⟩, ?_⟩
  simp [line.inode_decimal.no_newline, line.path_printable.no_newline]

theorem GoodLine.whole_token (line : GoodLine) :
    IsToken Blank 10 (line.dev ++ 32 :: (line.inode ++ 32 :: line.path)) := by
  obtain ⟨b, rest, shape, head⟩ := line.dev_decimal.token.head
  refine ⟨⟨b, rest ++ 32 :: (line.inode ++ 32 :: line.path), by rw [shape, List.cons_append],
    head⟩, ?_⟩
  simp [line.dev_decimal.no_newline, line.tail_token.undelimited]

/-- When only blanks or a part of a dev field are open, a well-formed line is read with its own
path. -/
theorem GoodLine.starts_own (line : GoodLine) {rest : List UInt8}
    (aligned : AllBlank Blank rest ∨ ∃ dev, Trailing Blank 32 rest dev) (more : List UInt8) :
    ∃ record : Record, record.path = line.path ∧
      Starts record (rest ++ ((Entry.good line).bytes ++ more)) more := by
  rw [line.bytes_append]
  have second := line.inode_decimal.token.field (allBlank_nil Blank) (line.path ++ 10 :: more)
  have third := line.path_printable.token.field (allBlank_nil Blank) more
  rcases aligned with blanks | ⟨dev, trailing⟩
  · exact ⟨⟨line.dev, line.inode, line.path⟩, rfl, _, _, line.dev_decimal.token.field blanks _,
      second, third⟩
  · have first := (trailing.extend line.dev_decimal.token.undelimited).close
      (line.inode ++ 32 :: (line.path ++ 10 :: more))
    rw [List.append_assoc] at first
    exact ⟨⟨dev ++ line.dev, line.inode, line.path⟩, rfl, _, _, first, second, third⟩

/-- When the dev field is complete already, the path that is read starts further in front. -/
theorem GoodLine.starts_longer (line : GoodLine) {rest : List UInt8} {tail : Option (List UInt8)}
    (ending : Ending rest tail) (more : List UInt8) :
    (AllBlank Blank rest ∨ ∃ dev, Trailing Blank 32 rest dev) ∨
      ∃ record : Record, line.path.length < record.path.length ∧
        Starts record (rest ++ ((Entry.good line).bytes ++ more)) more := by
  rw [line.bytes_append]
  have path_end := line.tail_token.field (allBlank_nil Blank) more
  rw [List.nil_append, List.append_assoc, List.cons_append] at path_end
  cases ending with
  | blank blanks => exact Or.inl (Or.inl blanks)
  | dev trailing => exact Or.inl (Or.inr ⟨_, trailing⟩)
  | @noInode text₁ dev first blanks =>
    refine Or.inr ⟨⟨dev, line.dev, line.inode ++ 32 :: line.path⟩, by simp; omega, _, _,
      first.append _, line.dev_decimal.token.field blanks _, path_end⟩
  | @inode text₁ dev inode first trailing =>
    have second := (trailing.extend line.dev_decimal.token.undelimited).close
      (line.inode ++ 32 :: (line.path ++ 10 :: more))
    rw [List.append_assoc] at second
    exact Or.inr ⟨⟨dev, inode ++ line.dev, line.inode ++ 32 :: line.path⟩, by simp; omega, _, _,
      first.append _, second, path_end⟩
  | @noPath text₁ text₂ dev inode first second blanks =>
    have third := line.whole_token.field blanks more
    simp only [List.append_assoc, List.cons_append] at third
    exact Or.inr ⟨⟨dev, inode, line.dev ++ 32 :: (line.inode ++ 32 :: line.path)⟩, by simp; omega,
      _, _, first.append _, second.append _, third⟩
  | @path text₁ text₂ dev inode path first second trailing =>
    have third := (trailing.extend line.whole_token.undelimited).close more
    simp only [List.append_assoc, List.cons_append] at third
    exact Or.inr ⟨⟨dev, inode, path ++ (line.dev ++ 32 :: (line.inode ++ 32 :: line.path))⟩,
      by simp; omega, _, _, first.append _, second.append _, third⟩

/-! ## What is opened, with its place -/

/-- What the loop of `readahead` opens from `c` on. -/
def opensFrom (c : Cursor) : List (Nat × List UInt8) :=
  (readaheadLoop c).1.map fun line => (line.dt, line.path)

section
variable {c : Cursor} {rest : List UInt8}

theorem opensFrom_some {line : Line} {c' : Cursor} (read : readLine c = (some line, c')) :
    opensFrom c = (line.dt, line.path) :: opensFrom c' := by
  rw [opensFrom, readaheadLoop_some read, List.map_cons]
  rfl

/-- Everything opened from `c` on stands behind what is read already. -/
theorem dtE_le_opensFrom (c : Cursor) : ∀ found ∈ opensFrom c, c.dtE ≤ found.1 := by
  induction left : c.mem.length - c.dtE using Nat.strong_induction_on generalizing c with
  | _ n ih =>
    cases read : readLine c with
    | mk result c' =>
      cases result with
      | none => simp [opensFrom, readaheadLoop_none read]
      | some line =>
        have moved := readLine_some read
        have inside := c'.dtE_le
        have later := ih (c'.mem.length - c'.dtE) (by omega) c' rfl
        rw [opensFrom_some read]
        intro found member
        rcases List.mem_cons.mp member with rfl | member
        · exact moved.2.2.2
        · have behind := later found member
          omega

/-- A complete line is opened at its path. -/
theorem opensFrom_starts {record : Record} (starts : Starts record c.unread rest) :
    ∃ dt c', c'.unread = rest ∧ c'.mem.length = c.mem.length ∧ c.dtE ≤ c'.dtE ∧
      c'.dtE = dt + record.path.length + 1 ∧
      opensFrom c = (dt, upToNul record.path) :: opensFrom c' := by
  obtain ⟨line, c', read, unread, line_read⟩ := readLine_starts starts
  have moved := readLine_some read
  exact ⟨line.dt, c', unread, moved.1, Nat.le_of_lt moved.2.1, line_read.dtE, by
    rw [opensFrom_some read, line_read.path]⟩

/-- What complete lines open stands before what is still unread. -/
theorem opensFrom_lines {records : List Record} (complete : Lines c.unread records rest) :
    ∃ front c', c'.unread = rest ∧ c'.mem.length = c.mem.length ∧ c.dtE ≤ c'.dtE ∧
      opensFrom c = front ++ opensFrom c' ∧ ∀ found ∈ front, found.1 < c'.dtE := by
  induction records generalizing c with
  | nil =>
    cases complete
    exact ⟨[], c, rfl, rfl, Nat.le_refl _, rfl, by simp⟩
  | cons record records ih =>
    cases complete with
    | cons starts complete =>
      obtain ⟨dt, c₁, unread, length, moved, dtE, first⟩ := opensFrom_starts starts
      obtain ⟨front, c₂, unread', length', moved', opens, before⟩ := ih (unread.symm ▸ complete)
      refine ⟨(dt, upToNul record.path) :: front, c₂, unread', length'.trans length,
        moved.trans moved', by rw [first, opens, List.cons_append], fun found member => ?_⟩
      rcases List.mem_cons.mp member with rfl | member
      · show dt < c₂.dtE
        omega
      · exact before found member

/-- After the complete lines of the text before it, a well-formed line is the end of the next
complete line. -/
theorem opensFrom_line {before more : List UInt8} {records : List Record} {record : Record}
    (complete : Lines before records rest) (line : GoodLine)
    (starts : Starts record (rest ++ ((Entry.good line).bytes ++ more)) more)
    (unread : c.unread = before ++ ((Entry.good line).bytes ++ more)) :
    ∃ front dt c', c'.unread = more ∧ c'.mem.length = c.mem.length ∧
      dt + record.path.length = c.dtE + before.length + line.front.length + line.path.length ∧
      c'.dtE = c.dtE + before.length + (Entry.good line).bytes.length ∧
      opensFrom c = front ++ (dt, upToNul record.path) :: opensFrom c' ∧
      ∀ found ∈ front, found.1 < c.dtE + before.length := by
  obtain ⟨front, c₁, unread₁, length₁, -, opens₁, earlier⟩ :=
    opensFrom_lines (unread.symm ▸ complete.append ((Entry.good line).bytes ++ more))
  obtain ⟨dt, c', unread', length', -, dtE, opens'⟩ := opensFrom_starts (unread₁.symm ▸ starts)
  have whole := c.unread_length
  have whole₁ := c₁.unread_length
  have whole' := c'.unread_length
  have bytes := line.bytes_length
  rw [unread, List.length_append, List.length_append] at whole
  rw [unread₁, List.length_append, List.length_append] at whole₁
  rw [unread'] at whole'
  refine ⟨front, dt, c', unread', length'.trans length₁, by omega, by omega,
    by rw [opens₁, opens'], fun found member => ?_⟩
  have below := earlier found member
  omega

/-- The reader in step opens the path of the next well-formed line where it stands, after what it
opens before. -/
theorem opensFrom_inStep {before more : List UInt8} (in_step : InStep before) (line : GoodLine)
    (unread : c.unread = before ++ ((Entry.good line).bytes ++ more)) :
    ∃ front c', c'.unread = more ∧
      c'.dtE = c.dtE + before.length + (Entry.good line).bytes.length ∧
      opensFrom c = front ++ (c.dtE + before.length + line.front.length, line.path) ::
        opensFrom c' ∧
      ∀ found ∈ front, found.1 < c.dtE + before.length := by
  obtain ⟨records, rest, complete, aligned⟩ := in_step
  obtain ⟨record, same, starts⟩ := line.starts_own aligned more
  obtain ⟨front, dt, c', unread', -, place, dtE, opens, earlier⟩ :=
    opensFrom_line complete line starts unread
  rw [same] at place opens
  have here : dt = c.dtE + before.length + line.front.length := by omega
  rw [here, upToNul_eq_self line.path_printable.no_nul] at opens
  exact ⟨front, c', unread', dtE, opens, earlier⟩

/-- The reader that is not in step does not open the path of the next well-formed line. -/
theorem opensFrom_lost {before more : List UInt8} (out_of_step : ¬ InStep before)
    (line : GoodLine) (unread : c.unread = before ++ ((Entry.good line).bytes ++ more)) :
    (c.dtE + before.length + line.front.length, line.path) ∉ opensFrom c := by
  obtain ⟨records, rest, tail, complete, ending⟩ := lines_exist before
  rcases line.starts_longer ending more with aligned | ⟨record, longer, starts⟩
  · exact absurd ⟨records, rest, complete, aligned⟩ out_of_step
  · obtain ⟨front, dt, c', unread', -, place, dtE, opens, earlier⟩ :=
      opensFrom_line complete line starts unread
    have bytes := line.bytes_length
    rw [opens]
    intro member
    rcases List.mem_append.mp member with before_it | at_it
    · have below := earlier _ before_it
      simp only at below
      omega
    · rcases List.mem_cons.mp at_it with same | after_it
      · have place' := congrArg Prod.fst same
        simp only at place'
        omega
      · have behind := dtE_le_opensFrom c' _ after_it
        simp only at behind
        omega

/-- The own paths of the lines from `start` on are opened in order if and only if the malformed
lines leave the reader in step before each well-formed line. -/
theorem ownPaths_sublist_iff (lines : List Entry) (before : List UInt8)
    (unread : c.unread = before ++ fileOf lines) :
    (ownPaths (c.dtE + before.length) lines).Sublist (opensFrom c) ↔
      Resynchronised before lines := by
  induction lines generalizing before c with
  | nil => exact iff_of_true (List.nil_sublist _) trivial
  | cons entry lines ih =>
    rw [fileOf, List.flatMap_cons] at unread
    cases entry with
    | malformed text no_newline =>
      have next := ih (before ++ (Entry.malformed text no_newline).bytes)
        (by rw [unread, List.append_assoc]; rfl)
      rwa [List.length_append, ← Nat.add_assoc] at next
    | good line =>
      rw [ownPaths, Resynchronised]
      by_cases in_step : InStep before
      · obtain ⟨front, c', unread', dtE, opens, earlier⟩ := opensFrom_inStep in_step line unread
        have rest := ih (c := c') [] unread'
        rw [List.length_nil, Nat.add_zero, dtE] at rest
        rw [opens, ← rest]
        have first : (c.dtE + before.length + line.front.length, line.path) ∉ front := by
          intro member
          have below := earlier _ member
          simp only at below
          omega
        constructor
        · exact fun sub => ⟨in_step, sublist_of_first first sub⟩
        · exact fun both => (both.2.cons_cons _).trans (List.sublist_append_right front _)
      · refine iff_of_false (fun sub => ?_) fun both => in_step both.1
        exact opensFrom_lost in_step line unread (sub.subset List.mem_cons_self)

end

/-- Every well-formed line contributes its own path to what `readahead` opens, in order, if and
only if the malformed lines leave the reader in step before each of them. -/
theorem good_lines_opened_iff (lines : List Entry) :
    (ownPaths 0 lines).Sublist (opened (fileOf lines)) ↔ Resynchronised [] lines := by
  rw [opened, readaheadLines_eq]
  exact ownPaths_sublist_iff (c := Cursor.start (fileOf lines)) lines [] rfl

/-- `1 2 /x` as a well-formed line. -/
def oneTwoX : GoodLine where
  dev := [49]
  inode := [50]
  path := [47, 120]
  dev_decimal := ⟨by decide, List.all_eq_true.mp rfl⟩
  inode_decimal := ⟨by decide, List.all_eq_true.mp rfl⟩
  path_printable := ⟨⟨47, [120], rfl, by decide⟩, by decide, by decide⟩

/-- After the malformed line `a b`, the path of the line `1 2 /x` is opened as `2 /x`. -/
theorem good_line_spoiled : ¬ ∀ lines : List Entry,
    (ownPaths 0 lines).Sublist (opened (fileOf lines)) := by
  intro all
  have sub := all [.malformed [97, 32, 98] (by decide), .good oneTwoX]
  revert sub
  decide +kernel

end DebianConf.Preload
