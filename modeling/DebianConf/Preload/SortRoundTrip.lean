import DebianConf.Preload.Readahead
import Mathlib.Data.List.Permutation

/-!
# What `sort` writes, `readahead` reads back

The printed text is one complete line of the grammar for each record, in sorted order, so
`readahead` opens the paths in this order; and `strtoul` gives back the printed numbers.
-/

namespace DebianConf.Preload

open DebianConf.Lib

/-- A path as it can stand in the list: it starts with a byte above the space and has no
newline and no NUL. -/
structure Printable (path : List UInt8) : Prop where
  head : ∃ b rest, path = b :: rest ∧ ¬ Blank b
  no_newline : (10 : UInt8) ∉ path
  no_nul : (0 : UInt8) ∉ path

/-- What a record says of a file, with the path as a string. -/
def FileDesc.key (mem : List UInt8) (fd : FileDesc) : BitVec 32 × BitVec 64 × List UInt8 :=
  (fd.dev, fd.inode, fd.text mem)

/-- What a line says of a file, with the numbers converted as in `processBlock`. -/
def Line.key (line : Line) : BitVec 32 × BitVec 64 × List UInt8 :=
  ((strtoul line.dev).setWidth 32, strtoul line.inode, line.path)

/-! ## Printed numbers -/

theorem printed_byte {z : ℤ} {b : UInt8} (member : b ∈ printSigned z) :
    ¬ Blank b ∧ b ≠ 32 ∧ b ≠ 0 := by
  have range : 45 ≤ b.toNat ∧ b.toNat ≤ 57 := by
    rcases mem_printSigned member with rfl | digit
    · decide
    · have bounds := isDigit_iff.mp digit
      omega
  refine ⟨fun blank => ?_, ?_, ?_⟩
  · have small := isBlank_iff.mp blank
    omega
  · intro space
    rw [space] at range
    simp at range
  · intro nul
    rw [nul] at range
    simp at range

theorem printed_token (z : ℤ) : IsToken Blank 32 (printSigned z) := by
  obtain ⟨b, rest, shape⟩ := List.exists_cons_of_ne_nil (printSigned_ne_nil z)
  have first : b ∈ printSigned z := by rw [shape]; exact List.mem_cons_self
  exact ⟨⟨b, rest, shape, (printed_byte first).1⟩, fun space => (printed_byte space).2.1 rfl⟩

theorem upToNul_printed (z : ℤ) : upToNul (printSigned z) = printSigned z :=
  upToNul_eq_self fun nul => (printed_byte nul).2.2 rfl

/-- `%d` of a 32-bit number, read by `strtoul` and narrowed to `int`. -/
theorem dev_round_trip (dev : BitVec 32) :
    (strtoul (printSigned dev.toInt)).setWidth 32 = dev := by
  have low := BitVec.le_toInt dev
  have high := BitVec.toInt_lt (x := dev)
  rw [strtoul_printSigned (by omega)]
  apply BitVec.eq_of_toNat_eq
  rw [BitVec.toNat_setWidth, BitVec.toNat_ofInt, BitVec.toInt_eq_toNat_cond]
  have small := dev.isLt
  split <;> omega

/-- `%lld` of an unsigned 64-bit number, read by `strtoul`. -/
theorem inode_round_trip (inode : BitVec 64) : strtoul (printSigned inode.toInt) = inode := by
  have low := BitVec.le_toInt inode
  have high := BitVec.toInt_lt (x := inode)
  rw [strtoul_printSigned (by omega), BitVec.ofInt_toInt]

/-! ## Printed lines -/

/-- The record of the grammar that is printed for `fd`. -/
def FileDesc.record (mem : List UInt8) (fd : FileDesc) : Record :=
  ⟨printSigned fd.dev.toInt, printSigned fd.inode.toInt, fd.text mem⟩

section
variable {mem : List UInt8}

theorem starts_printLine {fd : FileDesc} (printable : Printable (fd.text mem))
    (rest : List UInt8) : Starts (fd.record mem) (printLine mem fd ++ rest) rest := by
  refine ⟨printSigned fd.inode.toInt ++ 32 :: (fd.text mem ++ [10]) ++ rest,
    fd.text mem ++ [10] ++ rest, ⟨[], by simp [AllBlank], by simp [printLine, FileDesc.record],
      printed_token _⟩, ⟨[], by simp [AllBlank], by simp [FileDesc.record], printed_token _⟩,
    ⟨[], by simp [AllBlank], by simp [FileDesc.record], printable.head, printable.no_newline⟩⟩

theorem lines_printed {fds : List FileDesc} (printable : ∀ fd ∈ fds, Printable (fd.text mem)) :
    Lines (fds.flatMap (printLine mem)) (fds.map (FileDesc.record mem)) [] := by
  induction fds with
  | nil => exact .nil
  | cons fd fds ih =>
    rw [List.flatMap_cons, List.map_cons]
    exact .cons (starts_printLine (printable fd List.mem_cons_self) _)
      (ih fun fd member => printable fd (List.mem_cons_of_mem _ member))

theorem LineRead.key {c c' : Cursor} {fd : FileDesc} {line : Line}
    (read : LineRead c (fd.record mem) line c') (printable : Printable (fd.text mem)) :
    line.key = fd.key mem := by
  rw [Line.key, read.dev, read.inode, read.path]
  show ((strtoul (upToNul (printSigned fd.dev.toInt))).setWidth 32,
    strtoul (upToNul (printSigned fd.inode.toInt)), upToNul (fd.text mem)) = _
  rw [upToNul_printed, upToNul_printed, dev_round_trip, inode_round_trip,
    upToNul_eq_self printable.no_nul, FileDesc.key]

theorem LinesRead.keys {c c' : Cursor} {fds : List FileDesc} {lines : List Line}
    (read : LinesRead c (fds.map (FileDesc.record mem)) lines c')
    (printable : ∀ fd ∈ fds, Printable (fd.text mem)) :
    lines.map Line.key = fds.map (FileDesc.key mem) := by
  induction fds generalizing c lines with
  | nil =>
    cases read
    rfl
  | cons fd fds ih =>
    cases read with
    | cons _ line_read read =>
      rw [List.map_cons, List.map_cons, line_read.key (printable fd List.mem_cons_self),
        ih read fun fd member => printable fd (List.mem_cons_of_mem _ member)]

/-- The lines read from a printed text say what the printed records say. -/
theorem readaheadLines_printed {fds : List FileDesc}
    (printable : ∀ fd ∈ fds, Printable (fd.text mem)) :
    (readaheadLines (fds.flatMap (printLine mem))).map Line.key = fds.map (FileDesc.key mem) := by
  obtain ⟨lines, c, read, ended⟩ :=
    lines_read (c := Cursor.start (fds.flatMap (printLine mem))) (lines_printed printable)
  obtain ⟨last, stop, -⟩ := readLine_nothing ended
  rw [readaheadLines_eq, read.reads.readaheadLoop stop, read.keys printable]

/-! ## `Merge` and `UpdateBlock` -/

theorem merge_flatten (fileDescs : List (List FileDesc)) :
    (merge fileDescs).flatten = fileDescs.flatten := by
  cases fileDescs with
  | nil => rfl
  | cons vec rest =>
    have inserted : rest.foldl (· ++ ·) vec = vec ++ (rest.map id).flatten :=
      List.foldl_append_eq_append
    simp [merge, inserted]

theorem map_mapIdx {α β γ : Type*} {f : ℕ → α → β} {g : β → γ} {g' : α → γ}
    (same : ∀ i x, g (f i x) = g' x) (l : List α) : (l.mapIdx f).map g = l.map g' := by
  apply List.ext_getElem?
  intro i
  simp only [List.getElem?_map, List.getElem?_mapIdx, Option.map_map]
  congr 1
  funext x
  exact same i x

/-- `UpdateBlock` changes nothing but the blocks. -/
theorem updateBlock_map {α : Type*} (g : FileDesc → α)
    (same : ∀ fd block, g { fd with block := block } = g fd)
    (fibmap : Nat → Nat → List UInt8 → Option (BitVec 32)) (fileDescs : List (List FileDesc)) :
    (updateBlock fibmap mem fileDescs).flatten.map g = fileDescs.flatten.map g := by
  rw [List.map_flatten, List.map_flatten, updateBlock]
  congr 1
  exact map_mapIdx (fun i vec => map_mapIdx (fun j fd => same fd _) vec) fileDescs

/-- After `Merge` there is at most one vector. -/
theorem updated_cases (fibmap : Nat → Nat → List UInt8 → Option (BitVec 32))
    (fileDescs : List (List FileDesc)) : updateBlock fibmap mem (merge fileDescs) = [] ∨
      ∃ vec, updateBlock fibmap mem (merge fileDescs) = [vec] := by
  cases fileDescs with
  | nil => exact Or.inl rfl
  | cons vec rest => exact Or.inr ⟨_, rfl⟩

/-- What is printed after `Merge` and `UpdateBlock` is a sorted permutation of the records. -/
theorem writeOut_records (std : StdSort) (fibmap : Nat → Nat → List UInt8 → Option (BitVec 32))
    (mem : List UInt8) (fileDescs : List (List FileDesc)) :
    ∃ records : List FileDesc,
      records.Perm (updateBlock fibmap mem (merge fileDescs)).flatten ∧
      records.Pairwise (fun fd later => fd.block.toInt ≤ later.block.toInt) ∧
      (writeOut std mem (updateBlock fibmap mem (merge fileDescs))).2 =
        records.flatMap (printLine mem) := by
  rcases updated_cases fibmap fileDescs with none | ⟨vec, one⟩
  · exact ⟨[], by rw [none]; exact .nil, .nil, by rw [none]; rfl⟩
  · rw [one]
    refine ⟨std.sort vec, ?_, (std.sorted vec).imp fun ordered => ?_, ?_⟩
    · simpa using std.perm vec
    · rw [FileDesc.lt, BitVec.slt_eq_decide, decide_eq_false_iff_not] at ordered
      omega
    · simp [writeOut]

end

/-- The sort command and `readahead` agree: what `WriteOut` prints after `Merge` and
`UpdateBlock` is read as the same files, by block, and each record gets its dev and inode
back. -/
theorem sort_round_trip (std : StdSort) (fibmap : Nat → Nat → List UInt8 → Option (BitVec 32))
    (mem : List UInt8) (fileDescs : List (List FileDesc))
    (printable : ∀ vec ∈ fileDescs, ∀ fd ∈ vec, Printable (fd.text mem)) :
    ∃ records : List FileDesc,
      records.Perm (updateBlock fibmap mem (merge fileDescs)).flatten ∧
      records.Pairwise (fun fd later => fd.block.toInt ≤ later.block.toInt) ∧
      (readaheadLines (writeOut std mem (updateBlock fibmap mem (merge fileDescs))).2).map
        Line.key = records.map (FileDesc.key mem) ∧
      ((readaheadLines (writeOut std mem (updateBlock fibmap mem (merge fileDescs))).2).map
        Line.key).Perm (fileDescs.flatten.map (FileDesc.key mem)) ∧
      readahead (writeOut std mem (updateBlock fibmap mem (merge fileDescs))).2 =
        records.map (FileDesc.text mem) ∧
      (readahead (writeOut std mem (updateBlock fibmap mem (merge fileDescs))).2).Perm
        (fileDescs.flatten.map (FileDesc.text mem)) := by
  obtain ⟨records, perm, sorted, written⟩ := writeOut_records std fibmap mem fileDescs
  have same : (records.map (FileDesc.key mem)).Perm
      (fileDescs.flatten.map (FileDesc.key mem)) := by
    rw [← merge_flatten fileDescs, ← updateBlock_map (FileDesc.key mem) (fun _ _ => rfl) fibmap]
    exact perm.map _
  have texts : (records.map (FileDesc.text mem)).Perm
      (fileDescs.flatten.map (FileDesc.text mem)) := by
    have third := same.map fun key => key.2.2
    rw [List.map_map, List.map_map] at third
    exact third
  have ok : ∀ fd ∈ records, Printable (fd.text mem) := by
    intro fd member
    obtain ⟨original, there, same⟩ :=
      List.mem_map.mp (texts.subset (List.mem_map_of_mem (f := FileDesc.text mem) member))
    obtain ⟨vec, vec_member, fd_member⟩ := List.mem_flatten.mp there
    exact same ▸ printable vec vec_member original fd_member
  have keys := readaheadLines_printed ok
  have paths : readahead (records.flatMap (printLine mem)) = records.map (FileDesc.text mem) := by
    have third := congrArg (List.map fun key => key.2.2) keys
    rw [List.map_map, List.map_map] at third
    exact third
  rw [written, paths, keys]
  exact ⟨records, perm, sorted, rfl, same, rfl, texts⟩

/-- A sort for `StdSort` that keeps equal records in place. -/
def stableSort : StdSort where
  sort vec := vec.mergeSort fun fd later => !later.lt fd
  perm vec := List.mergeSort_perm vec _
  sorted vec := by
    have lt_iff : ∀ fd later : FileDesc,
        (!later.lt fd) = true ↔ fd.block.toInt ≤ later.block.toInt := by
      intro fd later
      simp [FileDesc.lt, BitVec.slt_eq_decide]
    have ordered : (vec.mergeSort fun fd later => !later.lt fd).Pairwise
        fun fd later => (!later.lt fd) = true := by
      refine List.pairwise_mergeSort (fun a b c => ?_) (fun a b => ?_) vec
      · rw [lt_iff, lt_iff, lt_iff]
        exact le_trans
      · rw [Bool.or_eq_true, lt_iff, lt_iff]
        exact le_total _ _
    exact ordered.imp fun kept => by simpa using kept

/-- Two vectors, one record with a negative dev and an inode of `2 ^ 63`, the other with a
blank in its path and in an earlier block. -/
theorem sort_round_trip_two : (readaheadLines (writeOut stableSort [47, 97, 0, 47, 98, 32, 99]
      (updateBlock (fun _ j _ => some (5 - BitVec.ofNat 32 j)) [47, 97, 0, 47, 98, 32, 99] (merge
        [[⟨-1, 9223372036854775808, 0, some 0, []⟩], [⟨2049, 7, 0, some 3, []⟩]]))).2).map
      Line.key =
    [(2049, 7, [47, 98, 32, 99]), (-1, 9223372036854775808, [47, 97])] := by
  obtain ⟨records, perm, sorted, keys, -⟩ := sort_round_trip stableSort
    (fun _ j _ => some (5 - BitVec.ofNat 32 j)) [47, 97, 0, 47, 98, 32, 99]
    [[⟨-1, 9223372036854775808, 0, some 0, []⟩], [⟨2049, 7, 0, some 3, []⟩]] (by
      intro vec member fd inside
      rcases List.mem_cons.mp member with rfl | member
      · rw [List.mem_singleton.mp inside]
        exact ⟨⟨47, [97], by decide, by decide⟩, by decide, by decide⟩
      · rw [List.mem_singleton.mp member, List.mem_singleton] at inside
        rw [inside]
        exact ⟨⟨47, [98, 32, 99], by decide, by decide⟩, by decide, by decide⟩)
  rw [keys]
  -- the record in block 4 is printed before the one in block 5
  rcases List.perm_pair.mp (perm : records.Perm [_, _]) with rfl | rfl
  · revert sorted
    decide
  · decide

end DebianConf.Preload
