import DebianConf.Preload.Damage
import DebianConf.Preload.ListFile
import DebianConf.Preload.SortRoundTrip
import DebianConf.SysLinux.CString

/-!
# The `sort` command

`main` outside of process 1 reads a list, sorts it by block and prints it, to be read by
`readahead` at the next boot. What it prints is the list that it has read, in another order,
except for lists of less than 50 bytes, of which nothing is printed, and for lists that end in a
token without space right after the newline of a line, which prolongs the path of that line. What
is printed is a list again, which a second run leaves alone.
-/

namespace DebianConf.Preload

open DebianConf.Lib DebianConf.SysLinux

/-- The loop of `main` over its arguments (`preload_main.cpp:153-165`): `sort` and `fname`
afterwards. -/
def arguments (sort : Bool) (fname : List UInt8) : List (List UInt8) → Bool × List UInt8
  | [] => (sort, fname)
  | arg :: rest =>
    if arg = ascii "sort" then
      match rest with
      | [] => (true, fname)
      | name :: rest => arguments true name rest
    else arguments sort fname rest

/-- What `main` does when it sorts (`preload_main.cpp:166-173`): `loadFile`, `Merge`,
`UpdateBlock` and `WriteOut`. The result is what is printed. -/
def sortFile (std : StdSort) (fibmap : Nat → Nat → List UInt8 → Option (BitVec 32))
    (content : List UInt8) : Option (List UInt8) := do
  let p ← loadFile content
  return (writeOut std p.cursor.mem (updateBlock fibmap p.cursor.mem (merge p.fileDescs))).2

/-- `main` when it is not process 1 (`preload_main.cpp:152-174`). A file that cannot be opened or
mapped is like an empty one. -/
def mainOutside (std : StdSort) (fibmap : Nat → Nat → List UInt8 → Option (BitVec 32))
    (files : List UInt8 → Option (List UInt8)) (av : List (List UInt8)) : Option (List UInt8) :=
  let (sort, fname) := arguments false (ascii "/var/lib/e4rat/startup.log") av.tail
  if sort then sortFile std fibmap ((files fname).getD []) else some []

/-- The first `sort` is never taken for the name of a file. -/
theorem arguments_sort (sort : Bool) (fname : List UInt8) (av : List (List UInt8)) :
    (arguments sort fname av).1 = true ↔ sort = true ∨ ascii "sort" ∈ av := by
  induction av using List.twoStepInduction generalizing sort fname with
  | nil => simp [arguments]
  | singleton arg =>
    unfold arguments
    split
    · next same => simp [same]
    · next other => simp [arguments, Ne.symm other]
  | cons_cons arg name rest ih ih' =>
    unfold arguments
    split
    · next same => simp [same, ih]
    · next other => simp [ih', Ne.symm other]

/-- `main` sorts a list when one of its arguments is `sort`, and prints nothing otherwise. -/
theorem mainOutside_eq (std : StdSort)
    (fibmap : Nat → Nat → List UInt8 → Option (BitVec 32))
    (files : List UInt8 → Option (List UInt8)) (av : List (List UInt8)) :
    (ascii "sort" ∈ av.tail → ∃ fname,
      mainOutside std fibmap files av = sortFile std fibmap ((files fname).getD [])) ∧
    (ascii "sort" ∉ av.tail → mainOutside std fibmap files av = some []) := by
  obtain ⟨sort, fname, given⟩ : ∃ sort fname,
      arguments false (ascii "/var/lib/e4rat/startup.log") av.tail = (sort, fname) := ⟨_, _, rfl⟩
  have chosen := arguments_sort false (ascii "/var/lib/e4rat/startup.log") av.tail
  rw [given, or_iff_right Bool.false_ne_true] at chosen
  rw [mainOutside, given, ← chosen]
  exact ⟨fun on => ⟨fname, if_pos on⟩, fun off => if_neg off⟩

/-! ## Reading a text with newlines in its paths -/

/-- What `readahead` makes of a path that is printed. -/
def firstLine (path : List UInt8) : List UInt8 := path.takeWhile (· != 10)

/-- A path that may go on after a newline, without blanks there. -/
structure Ragged (path : List UInt8) : Prop where
  head : ∃ b rest, path = b :: rest ∧ ¬ Blank b
  no_nul : (0 : UInt8) ∉ path
  rest : ∀ more, path = firstLine path ++ 10 :: more → (32 : UInt8) ∉ more

theorem firstLine_cases (path : List UInt8) : path = firstLine path ∨
    ∃ more, path = firstLine path ++ 10 :: more := by
  have split := List.takeWhile_append_dropWhile (p := (· != 10)) (l := path)
  cases after : path.dropWhile (· != 10) with
  | nil =>
    rw [after, List.append_nil] at split
    exact Or.inl split.symm
  | cons b more =>
    have stops := List.head_dropWhile_not (p := (· != 10)) (l := path) (by rw [after]; simp)
    simp only [after, List.head_cons, bne_eq_false_iff_eq] at stops
    rw [after, stops] at split
    exact Or.inr ⟨more, split.symm⟩

theorem newline_not_mem_firstLine (path : List UInt8) : (10 : UInt8) ∉ firstLine path := by
  intro member
  have stays := List.mem_takeWhile_imp member
  simp at stays

theorem firstLine_eq_self {path : List UInt8} (no_newline : (10 : UInt8) ∉ path) :
    firstLine path = path := by
  apply List.takeWhile_eq_self_iff.mpr
  intro b member
  simpa using fun same : b = 10 => no_newline (same ▸ member)

theorem firstLine_cons {b : UInt8} (head : ¬ Blank b) (rest : List UInt8) :
    firstLine (b :: rest) = b :: firstLine rest := by
  apply List.takeWhile_cons_of_pos
  simpa using fun same : b = 10 => head (same ▸ blank_newline)

theorem upToNul_cons {b : UInt8} (head : ¬ Blank b) (rest : List UInt8) :
    upToNul (b :: rest) = b :: upToNul rest := by
  apply List.takeWhile_cons_of_pos
  simpa using fun same : b = 0 => head (same ▸ rfl)

theorem Ragged.firstLine_head {path : List UInt8} (ragged : Ragged path) :
    ∃ b rest, firstLine path = b :: rest ∧ ¬ Blank b := by
  obtain ⟨b, rest, rfl, head⟩ := ragged.head
  exact ⟨b, firstLine rest, firstLine_cons head rest, head⟩

theorem Printable.ragged {path : List UInt8} (printable : Printable path) : Ragged path where
  head := printable.head
  no_nul := printable.no_nul
  rest more split := by
    have newline : (10 : UInt8) ∈ path := by
      rw [split]
      simp
    exact absurd newline printable.no_newline

/-- What stands before a token without its delimiter only changes the token. -/
theorem field_prepend {before tok : List UInt8} (token : IsToken Blank 32 tok)
    (no_space : (32 : UInt8) ∉ before) (rest : List UInt8) :
    ∃ tok', Field Blank 32 (before ++ (tok ++ 32 :: rest)) tok' rest := by
  induction before with
  | nil => exact ⟨tok, token.field (allBlank_nil Blank) rest⟩
  | cons b before ih =>
    rw [List.mem_cons, not_or] at no_space
    by_cases skipped : Blank b
    · obtain ⟨tok', field⟩ := ih no_space.2
      exact ⟨tok', field.cons skipped⟩
    · refine ⟨b :: (before ++ tok), [], allBlank_nil Blank, by simp, ⟨b, _, rfl, skipped⟩, ?_⟩
      rw [List.mem_cons, List.mem_append, not_or, not_or]
      exact ⟨no_space.1, no_space.2, token.undelimited⟩

section
variable {mem : List UInt8}

/-- `printLine`, of what a record says of its file. -/
theorem printLine_eq (fd : FileDesc) : printLine mem fd = printSigned fd.dev.toInt ++ 32 ::
    (printSigned fd.inode.toInt ++ 32 :: (fd.text mem ++ [10])) := rfl

/-- A printed path ends at its first newline, and the rest of it goes to the dev of the next
line. -/
theorem lines_ragged {fds : List FileDesc} (ragged : ∀ fd ∈ fds, Ragged (fd.text mem))
    {before : List UInt8} (no_space : (32 : UInt8) ∉ before) :
    ∃ records rest, Lines (before ++ fds.flatMap (printLine mem)) records rest ∧
      Ending rest none ∧ records.map Record.path = fds.map fun fd => firstLine (fd.text mem) := by
  induction fds generalizing before with
  | nil =>
    refine ⟨[], before, by simpa using Lines.nil, ?_, rfl⟩
    rcases field_cases blank_space before with
      blanks | ⟨tok, rest, gap, _, rfl, _⟩ | ⟨tok, trailing⟩
    · exact .blank blanks
    · simp at no_space
    · exact .dev trailing
  | cons fd fds ih =>
    have this := ragged fd List.mem_cons_self
    have later : ∀ fd ∈ fds, Ragged (fd.text mem) :=
      fun fd member => ragged fd (List.mem_cons_of_mem _ member)
    -- the line of `fd` ends after `firstLine`, with `after` left of it
    have ends : ∃ after, fd.text mem ++ [10] = firstLine (fd.text mem) ++ 10 :: after ∧
        (32 : UInt8) ∉ after := by
      rcases firstLine_cases (fd.text mem) with whole | ⟨more, split⟩
      · exact ⟨[], by rw [← whole], by simp⟩
      · have no_space := this.rest more split
        refine ⟨more ++ [10], ?_, by simpa using no_space⟩
        rw [← List.cons_append, ← List.append_assoc, ← split]
    obtain ⟨after, split, clean⟩ := ends
    obtain ⟨records, rest, complete, ending, paths⟩ := ih later clean
    obtain ⟨dev, first⟩ := field_prepend (printed_token fd.dev.toInt) no_space
      (printSigned fd.inode.toInt ++ 32 :: (fd.text mem ++ [10] ++ fds.flatMap (printLine mem)))
    have second := (printed_token fd.inode.toInt).field (allBlank_nil Blank)
      (fd.text mem ++ [10] ++ fds.flatMap (printLine mem))
    have token : IsToken Blank 10 (firstLine (fd.text mem)) :=
      ⟨this.firstLine_head, newline_not_mem_firstLine _⟩
    have third := token.field (allBlank_nil Blank) (after ++ fds.flatMap (printLine mem))
    refine ⟨⟨dev, printSigned fd.inode.toInt, firstLine (fd.text mem)⟩ :: records, rest,
      .cons ⟨_, _, ?_, second, ?_⟩ complete, ending, by rw [List.map_cons, List.map_cons, paths]⟩
    · simpa [printLine_eq] using first
    · simpa [split] using third

/-- `readahead` opens the first lines of the printed paths. -/
theorem readahead_ragged {fds : List FileDesc} (ragged : ∀ fd ∈ fds, Ragged (fd.text mem)) :
    readahead (fds.flatMap (printLine mem)) = fds.map fun fd => firstLine (fd.text mem) := by
  obtain ⟨records, rest, complete, ending, paths⟩ :=
    lines_ragged ragged List.not_mem_nil
  rw [List.nil_append] at complete
  have strings := congrArg (List.map upToNul) paths
  rw [List.map_map, List.map_map] at strings
  rw [readahead_eq complete ending, opensAt, List.append_nil]
  refine strings.trans (List.map_congr_left fun fd member => upToNul_eq_self fun nul => ?_)
  exact (ragged fd member).no_nul ((List.takeWhile_prefix _).subset nul)

/-- The last line that is printed has a whole path. -/
theorem ragged_path_finished {fds : List FileDesc} (ragged : ∀ fd ∈ fds, Ragged (fd.text mem)) :
    ¬ UnfinishedPath (fds.flatMap (printLine mem)) := by
  obtain ⟨records, rest, complete, ending, -⟩ := lines_ragged ragged List.not_mem_nil
  rw [List.nil_append] at complete
  exact complete.path_finished ending

end

/-! ## What is stored -/

theorem printable_upToNul {path : List UInt8} (token : IsToken Blank 10 path) :
    Printable (upToNul path) := by
  obtain ⟨b, rest, rfl, head⟩ := token.head
  refine ⟨⟨b, upToNul rest, upToNul_cons head rest, head⟩, fun newline => ?_, ?_⟩
  · exact token.undelimited ((List.takeWhile_prefix _).subset newline)
  · exact upToNul_no_nul _

theorem Lines.printable {text rest : List UInt8} {records : List Record}
    (complete : Lines text records rest) :
    ∀ record ∈ records, Printable (upToNul record.path) := by
  induction complete with
  | nil => simp
  | cons starts _ ih =>
    obtain ⟨_, _, _, _, _, _, _, token⟩ := starts
    intro record member
    rcases List.mem_cons.mp member with rfl | later
    · exact printable_upToNul token
    · exact ih record later

/-- Everything that `readahead` opens can stand in a list. -/
theorem readahead_printable (content : List UInt8) :
    ∀ path ∈ readahead content, Printable path := by
  obtain ⟨records, rest, tail, complete, ending⟩ := lines_exist content
  rw [readahead_eq complete ending]
  intro path member
  rcases List.mem_append.mp member with line | last
  · obtain ⟨record, there, rfl⟩ := List.mem_map.mp line
    exact complete.printable record there
  · cases ending with
    | @path _ _ _ _ path _ _ trailing =>
      obtain ⟨_, _, _, ⟨b, rest, rfl, head⟩, undelimited⟩ := trailing
      rw [opensAt, List.mem_singleton] at last
      rw [last]
      refine printable_upToNul ⟨⟨b, _, rfl, head⟩, fun newline => ?_⟩
      rcases List.mem_append.mp newline with inside | doubled
      · exact undelimited inside
      · exact undelimited (List.mem_of_getLast? (Option.mem_toList.mp doubled))
    | _ => simp [opensAt] at last

section
variable {c c' : Cursor} {line : Line} {record : Record}

/-- A dev token without delimiter right at `dt_e` is moved onto the byte before `dt_e`, with its
last byte twice. -/
theorem readLine_moved (token : IsToken Blank 32 c.unread) (behind : c.dtE ≠ 0) :
    ∃ c' last, readLine c = (none, c') ∧ last ∈ c.unread ∧
      c'.mem = c.mem.take (c.dtE - 1) ++ (c.unread ++ [last]) := by
  have trailing : Trailing Blank 32 c.unread c.unread := ⟨[], allBlank_nil Blank, rfl, token⟩
  rcases nextToken_trailing trailing with ⟨dt, c₁, token₁, shifted⟩ | ⟨start, -⟩
  · obtain ⟨c', token₂, same⟩ := nextToken_nothing 32 shifted.unread
    have length := congrArg List.length shifted.token
    have unread := c.unread_length
    have below := shifted.below
    rw [List.length_drop] at length
    have dt_eq : dt = c.dtE - 1 := by omega
    refine ⟨c', c.unread.getLast shifted.nonempty, by simp only [readLine, token₁, token₂],
      List.getLast_mem _, ?_⟩
    rw [same, shifted.mem, ← dt_eq, List.append_assoc]
  · exact absurd start behind

/-- What is moved onto the NUL of a path prolongs it. -/
theorem LineRead.prolonged (read : LineRead c record line c') (no_nul : (0 : UInt8) ∉ record.path)
    (more : List UInt8) :
    cstr (c'.mem.take (c'.dtE - 1) ++ more) line.dt = record.path ++ upToNul more := by
  have dtE := read.dtE
  have inside := c'.dtE_le
  have front : (c'.mem.take (c'.dtE - 1)).drop line.dt = record.path := by
    have index : c'.dtE - 1 - line.dt = record.path.length := by omega
    rw [List.drop_take, read.drop, index, List.take_left]
  rw [cstr, List.drop_append_of_le_length (by rw [List.length_take]; omega), front,
    upToNul_append_of_no_nul no_nul]

end

/-- Without a token after the last newline the records have the paths that `readahead` opens. -/
theorem stored_intact {content : List UInt8} (long : 50 ≤ content.length)
    (intact : ¬ TokenAfterNewline content) : ∃ q, loadFile content = some q ∧
      q.fileDescs.flatten.map (FileDesc.text q.cursor.mem) = readahead content := by
  obtain ⟨q, loaded, stored, cursor, -⟩ := loadFile_long long
  refine ⟨q, loaded, ?_⟩
  rw [stored, cursor, readahead, List.map_map]
  apply List.map_congr_left
  intro line member
  rw [readaheadLines_eq] at member
  exact (readaheadLoop_kept_iff content).mpr intact line member

/-- With such a token the last path is prolonged. -/
theorem stored_damaged {content : List UInt8} (long : 50 ≤ content.length)
    (after_newline : TokenAfterNewline content) : ∃ q paths path b more,
      loadFile content = some q ∧
      q.fileDescs.flatten.map (FileDesc.text q.cursor.mem) = paths ++ [path ++ b :: more] ∧
      readahead content = paths ++ [path] ∧ ¬ Blank b ∧ (0 : UInt8) ∉ b :: more ∧
      (32 : UInt8) ∉ more := by
  obtain ⟨q, loaded, stored, cursor, -⟩ := loadFile_long long
  obtain ⟨records, record, tok, complete, no_nul, token⟩ := after_newline
  obtain ⟨lines, c, line, c', read, line_read, last_read, rfl⟩ := read_last complete
  have after := last_read.after
  have dtE := last_read.dtE
  have inside := c'.dtE_le
  obtain ⟨last, b, stop, member, mem⟩ := readLine_moved token (by omega)
  have loop := (read.reads.append (.cons line_read .nil)).readaheadLoop stop
  rw [readaheadLines_eq, loop] at stored
  rw [loop] at cursor
  -- the paths before the last one are below the byte that is overwritten
  have kept : last.mem.take (c'.dtE - 1) = c'.mem.take (c'.dtE - 1) := by
    rw [mem, List.take_left']
    rw [List.length_take]
    omega
  have before : ∀ l ∈ lines, cstr last.mem l.dt = l.path := by
    intro l there
    have safe := (read.safe.2.2 l there).keep last_read.frame (by omega : c.dtE ≤ c'.dtE - 1)
    exact (safe.keep kept le_rfl).text
  obtain ⟨x, tail, shape, head⟩ := token.head
  have moved : upToNul (c'.unread ++ [b]) = x :: upToNul (tail ++ [b]) := by
    rw [shape]
    exact upToNul_cons head _
  have no_space : (32 : UInt8) ∉ c'.unread ++ [b] := by
    intro space
    rcases List.mem_append.mp space with here | here
    · exact token.undelimited here
    · exact token.undelimited (List.mem_singleton.mp here ▸ member)
  refine ⟨q, lines.map Line.path, record.path, x, upToNul (tail ++ [b]), loaded, ?_, ?_, head, ?_,
    ?_⟩
  · rw [stored, cursor, List.map_map, List.map_append, List.map_singleton, ← moved,
      ← last_read.prolonged no_nul, ← mem]
    congr 1
    exact List.map_congr_left before
  · rw [readahead, readaheadLines_eq, loop, List.map_append, List.map_singleton, last_read.path,
      upToNul_eq_self no_nul]
  · rw [← moved]
    exact upToNul_no_nul _
  · intro space
    apply no_space
    rw [shape]
    exact List.mem_cons_of_mem _ ((List.takeWhile_prefix _).subset space)

/-! ## What is printed -/

theorem firstLine_append {path : List UInt8} (no_newline : (10 : UInt8) ∉ path)
    (more : List UInt8) : firstLine (path ++ more) = path ++ firstLine more := by
  apply List.takeWhile_append_of_pos
  intro b member
  simpa using fun same : b = 10 => no_newline (same ▸ member)

/-- A path that is prolonged by a token without spaces. -/
theorem Printable.prolong {path : List UInt8} (printable : Printable path) {more : List UInt8}
    (no_nul : (0 : UInt8) ∉ more) (no_space : (32 : UInt8) ∉ more) : Ragged (path ++ more) where
  head := by
    obtain ⟨b, rest, rfl, head⟩ := printable.head
    exact ⟨b, rest ++ more, rfl, head⟩
  no_nul nul := by
    rcases List.mem_append.mp nul with here | here
    · exact printable.no_nul here
    · exact no_nul here
  rest after split := by
    rw [firstLine_append printable.no_newline, List.append_assoc, List.append_cancel_left_eq]
      at split
    intro space
    apply no_space
    rw [split]
    simp [space]

/-- The records are printed in another order. -/
theorem sortFile_records (std : StdSort)
    (fibmap : Nat → Nat → List UInt8 → Option (BitVec 32)) {content : List UInt8} {q : Parser}
    (loaded : loadFile content = some q) : ∃ records : List FileDesc,
      records.Perm (updateBlock fibmap q.cursor.mem (merge q.fileDescs)).flatten ∧
      records.Pairwise (fun fd later => fd.block.toInt ≤ later.block.toInt) ∧
      (∀ {α : Type} (g : FileDesc → α), (∀ fd block, g { fd with block := block } = g fd) →
        (records.map g).Perm (q.fileDescs.flatten.map g)) ∧
      sortFile std fibmap content = some (records.flatMap (printLine q.cursor.mem)) := by
  obtain ⟨records, perm, sorted, written⟩ := writeOut_records std fibmap q.cursor.mem q.fileDescs
  refine ⟨records, perm, sorted, fun g same => ?_, ?_⟩
  · rw [← merge_flatten q.fileDescs, ← updateBlock_map g same fibmap]
    exact perm.map g
  · rw [sortFile, loaded, ← written]
    rfl

/-- What `readahead` makes of the output, which it reads without leaving the block. -/
theorem sortFile_opened (std : StdSort)
    (fibmap : Nat → Nat → List UInt8 → Option (BitVec 32)) {content : List UInt8} {q : Parser}
    (loaded : loadFile content = some q)
    (ragged : ∀ path ∈ q.fileDescs.flatten.map (FileDesc.text q.cursor.mem), Ragged path) :
    ∃ out : ListFile, sortFile std fibmap content = some out.content ∧
      (readahead out.content).Perm
        ((q.fileDescs.flatten.map (FileDesc.text q.cursor.mem)).map firstLine) := by
  obtain ⟨records, -, -, perm, printed⟩ := sortFile_records std fibmap loaded
  have texts := perm (FileDesc.text q.cursor.mem) fun _ _ => rfl
  have all : ∀ fd ∈ records, Ragged (fd.text q.cursor.mem) :=
    fun fd member => ragged _ (texts.subset (List.mem_map_of_mem member))
  refine ⟨⟨_, fun _ => ragged_path_finished all⟩, printed, ?_⟩
  rw [readahead_ragged all]
  have lines := texts.map firstLine
  rw [List.map_map] at lines
  exact lines

theorem map_firstLine {paths : List (List UInt8)} (printable : ∀ path ∈ paths, Printable path) :
    paths.map firstLine = paths := by
  refine (List.map_congr_left fun path member => ?_).trans (List.map_id paths)
  exact firstLine_eq_self (printable path member).no_newline

/-- Sorting a list changes nothing but the order in which `readahead` opens its files, if and only
if the list has at least 50 bytes and does not end in a token without space right after the newline
of a line whose path has no NUL, or has no line at all. -/
theorem sort_keeps_iff (std : StdSort) (fibmap : Nat → Nat → List UInt8 → Option (BitVec 32))
    (list : FinishedList) :
    (∃ out : ListFile, sortFile std fibmap list.content = some out.content ∧
      (readahead out.content).Perm (readahead list.content)) ↔
    (50 ≤ list.content.length ∧ ¬ TokenAfterNewline list.content) ∨ ¬ HasLine list.content := by
  generalize list.content = content
  have printable := readahead_printable content
  rw [← readahead_ne_nil_iff, not_not]
  by_cases long : 50 ≤ content.length
  · by_cases after_newline : TokenAfterNewline content
    · obtain ⟨q, paths, path, b, more, loaded, stored, opened, head, no_nul, no_space⟩ :=
        stored_damaged long after_newline
      rw [opened] at printable
      have space : (32 : UInt8) ∉ b :: more := by
        rw [List.mem_cons, not_or]
        exact ⟨fun same => head (same ▸ blank_space), no_space⟩
      have front : ∀ path ∈ paths, Printable path :=
        fun path member => printable path (List.mem_append_left _ member)
      have last : Printable path := printable path (by simp)
      obtain ⟨out, printed, perm⟩ := sortFile_opened std fibmap loaded (by
        intro text member
        rw [stored] at member
        rcases List.mem_append.mp member with before | here
        · exact (front text before).ragged
        · rw [List.mem_singleton.mp here]
          exact last.prolong no_nul space)
      rw [stored, List.map_append, map_firstLine front, List.map_singleton,
        firstLine_append last.no_newline] at perm
      rw [opened, ListFile.printed_iff printed fun text => (readahead text).Perm (paths ++ [path])]
      refine iff_of_false (fun perm' => ?_) (by simp [long, after_newline])
      have one := (List.perm_append_left_iff paths).mp (perm.symm.trans perm')
      have same := List.singleton_perm_singleton.mp one
      rw [List.append_right_eq_self, firstLine_cons head] at same
      cases same
    · obtain ⟨q, loaded, stored⟩ := stored_intact long after_newline
      obtain ⟨out, printed, perm⟩ := sortFile_opened std fibmap loaded (by
        rw [stored]
        exact fun path member => (printable path member).ragged)
      rw [stored, map_firstLine printable] at perm
      exact iff_of_true ⟨out, printed, perm⟩ (Or.inl ⟨long, after_newline⟩)
  · obtain ⟨q, loaded, stored⟩ := loadFile_short (Nat.lt_of_not_le long)
    obtain ⟨out, printed, perm⟩ := sortFile_opened std fibmap loaded (by simp [stored])
    rw [stored] at perm
    have nothing : readahead out.content = [] := List.perm_nil.mp perm
    rw [ListFile.printed_iff printed fun text => (readahead text).Perm (readahead content), nothing,
      List.nil_perm]
    simp [long]

/-! ## Sorting again -/

/-- The block of a file; 0 when it cannot be opened. -/
def blockOf (disk : List UInt8 → Option (BitVec 32)) (path : List UInt8) : BitVec 32 :=
  (disk path).getD 0

/-- The line that is printed for a file. -/
def printKey (key : BitVec 32 × BitVec 64 × List UInt8) : List UInt8 :=
  printSigned key.1.toInt ++ 32 :: (printSigned key.2.1.toInt ++ 32 :: (key.2.2 ++ [10]))

/-- The files are in the order of their blocks. -/
def InOrder (disk : List UInt8 → Option (BitVec 32)) (paths : List (List UInt8)) : Prop :=
  paths.Pairwise fun path later => (blockOf disk path).toInt ≤ (blockOf disk later).toInt

theorem updateBlock_block {disk : List UInt8 → Option (BitVec 32)} {mem : List UInt8}
    {fileDescs : List (List FileDesc)} {fd : FileDesc}
    (member : fd ∈ (updateBlock (fun _ _ => disk) mem fileDescs).flatten) :
    fd.block = blockOf disk (fd.text mem) := by
  obtain ⟨vec, there, inside⟩ := List.mem_flatten.mp member
  obtain ⟨i, _, rfl⟩ := List.mem_mapIdx.mp there
  obtain ⟨j, _, rfl⟩ := List.mem_mapIdx.mp inside
  rfl

theorem sortFile_short (std : StdSort) (fibmap : Nat → Nat → List UInt8 → Option (BitVec 32))
    {content : List UInt8} (short : content.length < 50) :
    sortFile std fibmap content = some [] := by
  obtain ⟨q, loaded, stored⟩ := loadFile_short short
  obtain ⟨records, -, -, perm, printed⟩ := sortFile_records std fibmap loaded
  have nothing := perm (fun fd => fd.inode) fun _ _ => rfl
  rw [stored, List.map_nil, List.perm_nil, List.map_eq_nil_iff] at nothing
  rw [printed, nothing, List.flatMap_nil]

/-- The text of printed lines ends in a newline. -/
theorem intact_of_lines {text : List UInt8} {records : List Record}
    (complete : Lines text records []) : ¬ TokenAfterNewline text := by
  apply (readaheadLoop_kept_iff text).mp
  apply kept_of_apart complete (.blank (allBlank_nil Blank))
  intro token
  obtain ⟨_, _, shape, _⟩ := token.head
  cases shape

/-- What is printed for a list that is read as it is: its files in order. -/
theorem sortFile_intact (std : StdSort) (disk : List UInt8 → Option (BitVec 32))
    {content : List UInt8} (long : 50 ≤ content.length) (intact : ¬ TokenAfterNewline content) :
    ∃ keys, sortFile std (fun _ _ => disk) content = some (keys.flatMap printKey) ∧
      keys.Perm ((readaheadLines content).map Line.key) ∧
      InOrder disk (keys.map fun key => key.2.2) ∧
      (readaheadLines (keys.flatMap printKey)).map Line.key = keys ∧
      ∃ records, Lines (keys.flatMap printKey) records [] := by
  obtain ⟨q, loaded, stored⟩ := stored_intact long intact
  obtain ⟨q', loaded', records_eq, -⟩ := loadFile_long long
  obtain rfl : q = q' := Option.some.inj (loaded.symm.trans loaded')
  obtain ⟨records, perm, sorted, perm_map, printed⟩ := sortFile_records std (fun _ _ => disk) loaded
  have texts := perm_map (FileDesc.text q.cursor.mem) fun _ _ => rfl
  have printable : ∀ fd ∈ records, Printable (fd.text q.cursor.mem) := by
    intro fd member
    apply readahead_printable content
    rw [← stored]
    exact texts.subset (List.mem_map_of_mem member)
  have keys : q.fileDescs.flatten.map (FileDesc.key q.cursor.mem) =
      (readaheadLines content).map Line.key := by
    have paths := stored
    rw [records_eq, readahead, List.map_map, List.map_inj_left] at paths
    rw [records_eq, List.map_map]
    refine List.map_congr_left fun line member => ?_
    show (_, _, _) = (_, _, _)
    rw [show line.fileDesc.text q.cursor.mem = line.path from paths line member]
    rfl
  have out : records.flatMap (printLine q.cursor.mem) =
      (records.map (FileDesc.key q.cursor.mem)).flatMap printKey := by
    rw [List.flatMap_map]
    rfl
  refine ⟨records.map (FileDesc.key q.cursor.mem), out ▸ printed, ?_, ?_, ?_, ?_⟩
  · rw [← keys]
    exact perm_map (FileDesc.key q.cursor.mem) fun _ _ => rfl
  · rw [InOrder, List.pairwise_map, List.pairwise_map]
    refine sorted.imp_of_mem fun first later ordered => ?_
    rw [updateBlock_block (perm.subset first), updateBlock_block (perm.subset later)] at ordered
    exact ordered
  · rw [← out]
    exact readaheadLines_printed printable
  · rw [← out]
    exact ⟨_, lines_printed printable⟩

theorem readahead_of_keys {content : List UInt8} {keys : List (BitVec 32 × BitVec 64 × List UInt8)}
    (read : (readaheadLines content).map Line.key = keys) :
    readahead content = keys.map fun key => key.2.2 := by
  rw [← read, List.map_map]
  rfl

/-- What is printed for a list that does not end in a token right after its last line is a list
again, in the order of the blocks. Where they tell the files apart, sorting it again, by whatever
algorithm, prints it as it is, if and only if it has at least 50 bytes or is empty. -/
theorem sort_fixed_iff (std std' : StdSort) (disk : List UInt8 → Option (BitVec 32))
    (list : FinishedList) (intact : ¬ TokenAfterNewline list.content) :
    ∃ out : FinishedList, sortFile std (fun _ _ => disk) list.content = some out.content ∧
      InOrder disk (readahead out.content) ∧
      ((∀ line ∈ readaheadLines list.content, ∀ line' ∈ readaheadLines list.content,
          blockOf disk line.path = blockOf disk line'.path → line.key = line'.key) →
        (sortFile std' (fun _ _ => disk) out.content = some out.content ↔
          50 ≤ out.content.length ∨ out.content = [])) := by
  by_cases long : 50 ≤ list.content.length
  · obtain ⟨keys, printed, perm, ordered, read, records, complete⟩ :=
      sortFile_intact std disk long intact
    refine ⟨⟨keys.flatMap printKey, fun _ => complete.finished⟩, printed,
      readahead_of_keys read ▸ ordered, fun apart => ?_⟩
    show sortFile std' _ (keys.flatMap printKey) = _ ↔ 50 ≤ (keys.flatMap printKey).length ∨ _
    by_cases long' : 50 ≤ (keys.flatMap printKey).length
    · obtain ⟨keys', printed', perm', ordered', -⟩ :=
        sortFile_intact std' disk long' (intact_of_lines complete)
      refine iff_of_true ?_ (Or.inl long')
      rw [read] at perm'
      rw [printed']
      congr 2
      rw [InOrder, List.pairwise_map] at ordered ordered'
      refine perm'.eq_of_pairwise (fun key key' member member' before after => ?_) ordered' ordered
      -- two files with the same block are the same
      have same := BitVec.toInt_inj.mp (le_antisymm before after)
      obtain ⟨line, there, rfl⟩ := List.mem_map.mp (perm.subset (perm'.subset member))
      obtain ⟨line', there', rfl⟩ := List.mem_map.mp (perm.subset member')
      exact apart line there line' there' same
    · rw [sortFile_short std' _ (Nat.lt_of_not_le long'), Option.some.injEq, eq_comm]
      exact (or_iff_right long').symm
  · refine ⟨⟨[], fun _ => Lines.nil.finished⟩, sortFile_short std _ (Nat.lt_of_not_le long), ?_,
      fun _ => iff_of_true (sortFile_short std' _ (by simp)) (Or.inr rfl)⟩
    show InOrder disk (readahead [])
    rw [readahead, readaheadLines, if_pos rfl]
    exact .nil

/-- Two files, listed by their names. -/
def twoPaths : FinishedList where
  content := ascii "64769 1048577 /lib/libc.so.6\n64769 1048579 /sbin/init\n"
  ends full := absurd full (by decide)

/-- The two files are printed by their blocks, twice the same. -/
theorem sort_fixed_two : ∃ out : FinishedList,
    sortFile stableSort (fun _ _ path => some (if path = ascii "/sbin/init" then 5 else 7))
      twoPaths.content = some out.content ∧
    InOrder (fun path => some (if path = ascii "/sbin/init" then 5 else 7))
      (readahead out.content) ∧
    sortFile stableSort (fun _ _ path => some (if path = ascii "/sbin/init" then 5 else 7))
      out.content = some out.content := by
  have intact : ¬ TokenAfterNewline twoPaths.content :=
    (readaheadLoop_kept_iff _).mp (by decide +kernel)
  obtain ⟨out, printed, ordered, again⟩ := sort_fixed_iff stableSort stableSort
    (fun path => some (if path = ascii "/sbin/init" then 5 else 7)) twoPaths intact
  obtain ⟨keys, printed', perm, -⟩ := sortFile_intact stableSort
    (fun path => some (if path = ascii "/sbin/init" then 5 else 7)) (by decide) intact
  refine ⟨out, printed, ordered, (again (by decide +kernel)).mpr (Or.inl ?_)⟩
  rw [Option.some.inj (printed.symm.trans printed'), (perm.flatMap_right printKey).length_eq]
  decide +kernel

end DebianConf.Preload
