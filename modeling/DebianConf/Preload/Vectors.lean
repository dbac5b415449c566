import DebianConf.Lib.Memory
import DebianConf.Preload.ProcessBlock
import DebianConf.Preload.SortRoundTrip

/-!
# The vectors of `processBlock`

The vectors are made with a guessed number of empty records. However malformed the block is,
there are at most six of them, none keeps an empty record, and from 50 bytes on they hold what a
single pass over the block reads.
-/

namespace DebianConf.Preload

open DebianConf.Lib

/-! ## Where the tokens of a record stand -/

/-- What `nextToken` has not read yet is as in the file. -/
structure Ahead (content : List UInt8) (c : Cursor) : Prop where
  length : c.mem.length = content.length
  unread : c.unread = content.drop c.dtE

/-- What fills a record: its path is a pointer into the block, and before it stand in the
block, in this order, the dev and the inode token its numbers were read from. -/
structure FileDesc.Tokens (content : List UInt8) (fd : FileDesc) where
  dev : Nat
  devTok : List UInt8
  devRest : List UInt8
  dev_there : content.drop dev = devTok ++ 32 :: devRest
  dev_token : IsToken Blank 32 devTok
  dev_value : fd.dev = (strtoul (upToNul devTok)).setWidth 32
  inode : Nat
  inodeTok : List UInt8
  inodeRest : List UInt8
  inode_after : dev + devTok.length < inode
  inode_there : content.drop inode = inodeTok ++ 32 :: inodeRest
  inode_token : IsToken Blank 32 inodeTok
  inode_value : fd.inode = strtoul (upToNul inodeTok)
  path : Nat
  path_after : inode + inodeTok.length ≤ path
  path_inside : path < content.length
  path_set : fd.path = some path

/-- The record is filled from tokens of the file. -/
abbrev FileDesc.Filled (content : List UInt8) (fd : FileDesc) : Prop := Nonempty (fd.Tokens content)

section
variable {content tok rest : List UInt8} {c c' : Cursor} {dt : Nat} {delimiter : UInt8}

theorem ahead_start (content : List UInt8) : Ahead content (Cursor.start content) := ⟨rfl, rfl⟩

theorem Ahead.delimited (ahead : Ahead content c) (delimited : Delimited c tok rest dt c') :
    Ahead content c' := by
  refine ⟨delimited.length.trans ahead.length, ?_⟩
  obtain ⟨d, there⟩ := delimited.token
  have after := delimited.after
  have in_file : content.drop dt = tok ++ d :: rest := by
    have index : c.dtE + (dt - c.dtE) = dt := Nat.add_sub_cancel' after
    rw [← index, ← List.drop_drop, ← ahead.unread, Cursor.unread, List.drop_drop, index, there]
  rw [delimited.unread, delimited.dtE, Nat.add_assoc, ← List.drop_drop, in_file]
  simp

theorem Ahead.shifted (ahead : Ahead content c) (shifted : Shifted c tok dt c') :
    Ahead content c' := by
  refine ⟨shifted.length.trans ahead.length, ?_⟩
  rw [shifted.unread, shifted.dtE, shifted.length, ahead.length, List.drop_length]

theorem nextToken_unread (token : nextToken delimiter c = (some dt, c')) : c.unread ≠ [] := by
  intro ended
  obtain ⟨last, nothing, -⟩ := nextToken_nothing delimiter ended
  rw [token] at nothing
  cases nothing

/-- A token with more to read after it stands in the file, followed by its delimiter. -/
theorem Ahead.token (ahead : Ahead content c) (delim : Blank delimiter)
    (token : nextToken delimiter c = (some dt, c')) (more : c'.unread ≠ []) :
    ∃ tok rest, content.drop dt = tok ++ delimiter :: rest ∧ IsToken Blank delimiter tok ∧
      cstr c'.mem dt = upToNul tok ∧ c.dtE ≤ dt ∧ c'.dtE = dt + tok.length + 1 ∧
      Ahead content c' := by
  rcases cut_cases Blank delimiter c.unread with blanks | ⟨gap, tok, rest, cut⟩ | ⟨tok, trailing⟩
  · obtain ⟨last, nothing, -⟩ := nextToken_blank delimiter blanks
    rw [token] at nothing
    cases nothing
  · obtain ⟨last, found, delimited⟩ := nextToken_cut cut
    rw [token] at found
    cases found
    obtain ⟨-, -, -, is_token⟩ := cut.field delim
    have there : content.drop (c.dtE + gap.length) = tok ++ delimiter :: rest :=
      drop_of_drop (ahead.unread.symm.trans cut.split)
    exact ⟨tok, rest, there, is_token, delimited.cstr, delimited.after, delimited.dtE,
      ahead.delimited delimited⟩
  · rcases nextToken_trailing trailing with ⟨_, last, found, shifted⟩ | ⟨-, last, nothing, -⟩
    · rw [token] at found
      cases found
      exact absurd shifted.unread more
    · rw [token] at nothing
      cases nothing

/-- Any token starts in the block, at most one byte below where reading went on. -/
theorem Ahead.last_token (ahead : Ahead content c)
    (token : nextToken delimiter c = (some dt, c')) :
    c.dtE ≤ dt + 1 ∧ dt < content.length ∧ Ahead content c' := by
  rcases nextToken_cases delimiter c with ⟨_, nothing, _⟩ | ⟨_, _, tok, rest, some, delimited⟩ |
    ⟨_, _, tok, some, shifted⟩
  · rw [token] at nothing
    cases nothing
  · rw [token] at some
    cases some
    have after := delimited.after
    have inside := delimited.end_lt
    rw [ahead.length] at inside
    exact ⟨by omega, by omega, ahead.delimited delimited⟩
  · rw [token] at some
    cases some
    have below := shifted.below
    rw [ahead.length] at below
    exact ⟨shifted.after, by omega, ahead.shifted shifted⟩

/-- A line that is read makes a filled record. -/
theorem Ahead.readLine {line : Line} (ahead : Ahead content c)
    (read : readLine c = (some line, c')) :
    Ahead content c' ∧ line.fileDesc.Filled content := by
  obtain ⟨dev, c₁, inode, c₂, first, second, third, dev_eq, inode_eq, -⟩ := readLine_tokens read
  obtain ⟨devTok, devRest, dev_there, dev_token, dev_text, -, dev_end, ahead₁⟩ :=
    ahead.token blank_space first (nextToken_unread second)
  obtain ⟨inodeTok, inodeRest, inode_there, inode_token, inode_text, inode_after, inode_end,
    ahead₂⟩ := ahead₁.token blank_space second (nextToken_unread third)
  obtain ⟨path_after, path_inside, ahead₃⟩ := ahead₂.last_token third
  exact ⟨ahead₃, ⟨
    { dev := _, devTok := devTok, devRest := devRest, dev_there := dev_there
      dev_token := dev_token, dev_value := by rw [Line.fileDesc, dev_eq, dev_text]
      inode := _, inodeTok := inodeTok, inodeRest := inodeRest
      inode_after := by omega
      inode_there := inode_there, inode_token := inode_token
      inode_value := by rw [Line.fileDesc, inode_eq, inode_text]
      path := _, path_after := by omega
      path_inside := path_inside, path_set := rfl }⟩⟩

theorem Reads.filled {lines : List Line} (reads : Reads c lines c') (ahead : Ahead content c) :
    ∀ fd ∈ lines.map Line.fileDesc, fd.Filled content := by
  induction reads with
  | nil => simp
  | cons read _ ih =>
    obtain ⟨ahead', filled⟩ := ahead.readLine read
    simpa using ⟨filled, by simpa using ih ahead'⟩

end

/-! ## What `processBlock` leaves -/

/-- `processBlock` ends with at most six vectors, never divides by a `line_size` of 0, and from
50 bytes on stores the lines of a single pass over the block. -/
theorem processBlock_ends (content : List UInt8) (fileDescs : List (List FileDesc)) (count : Nat) :
    ∃ vecs q, processBlock ⟨Cursor.start content, fileDescs, count⟩ = some q ∧
      q.fileDescs = fileDescs ++ vecs ∧ vecs.length ≤ 6 ∧
      (50 ≤ content.length →
        vecs.flatten = (readaheadLoop (Cursor.start content)).1.map Line.fileDesc) := by
  obtain ⟨groups, last, q, reads, stop, loop, stored, -, -, few⟩ :=
    processBlock_spec content fileDescs count
  refine ⟨_, q, loop, stored, by rw [List.length_map]; exact few, fun long => ?_⟩
  rw [reads.readaheadLoop (stop long), List.map_flatten]

/-- After `Merge` a parser that has vectors has one. -/
theorem merge_eq {fileDescs : List (List FileDesc)} (some : fileDescs ≠ []) :
    merge fileDescs = [fileDescs.flatten] := by
  cases fileDescs with
  | nil => exact absurd rfl some
  | cons vec rest =>
    have whole := merge_flatten (vec :: rest)
    rw [merge] at whole ⊢
    rw [← whole, List.flatten_singleton]

/-- `UpdateBlock` and `WriteOut` only move records around and set their blocks. -/
theorem paths_kept (std : StdSort) (fibmap : Nat → Nat → List UInt8 → Option (BitVec 32))
    (mem : List UInt8) (fileDescs : List (List FileDesc)) :
    ((writeOut std mem (updateBlock fibmap mem fileDescs)).1.flatten.map FileDesc.path).Perm
      (fileDescs.flatten.map FileDesc.path) := by
  have same : (updateBlock fibmap mem fileDescs).flatten.map FileDesc.path = _ :=
    updateBlock_map FileDesc.path (fun _ _ => rfl) fibmap fileDescs
  rw [← same]
  refine List.Perm.map _ ?_
  generalize updateBlock fibmap mem fileDescs = updated
  show (updated.map std.sort).flatten.Perm updated.flatten
  induction updated with
  | nil => exact .nil
  | cons vec rest ih =>
    simp only [List.map_cons, List.flatten_cons]
    exact (std.perm vec).append ih

/-- Records with the paths of filled records have a path in the block. -/
theorem paths_inside {content : List UInt8} {fileDescs vecs : List (List FileDesc)}
    (filled : ∀ fd ∈ fileDescs.flatten, fd.Filled content)
    (same : (vecs.flatten.map FileDesc.path).Perm (fileDescs.flatten.map FileDesc.path)) :
    ∀ vec ∈ vecs, ∀ fd ∈ vec, ∃ p < content.length, fd.path = some p := by
  intro vec member fd inside
  have path : fd.path ∈ vecs.flatten.map FileDesc.path :=
    List.mem_map_of_mem (List.mem_flatten.mpr ⟨vec, member, inside⟩)
  obtain ⟨original, there, equal⟩ := List.mem_map.mp (same.subset path)
  obtain ⟨tokens⟩ := filled original there
  exact ⟨tokens.path, tokens.path_inside, by rw [← equal, tokens.path_set]⟩

/-- No half-filled record is left by `processBlock`: the vectors hold, in order, exactly the
records of the lines read into them, all filled, and `file_desc_count_` is their number. After
`Merge` they make up one vector, and the records `UpdateBlock` and `WriteOut` go through have
a path in the block. -/
theorem processBlock_filled (content : List UInt8) :
    ∃ (groups : List (List Line)) (last : Cursor) (q : Parser),
      processBlock ⟨Cursor.start content, [], 0⟩ = some q ∧
      Reads (Cursor.start content) groups.flatten last ∧
      q.fileDescs = groups.map (List.map Line.fileDesc) ∧
      (∀ vec ∈ q.fileDescs, ∀ fd ∈ vec, fd.Filled content) ∧
      q.fileDescCount = (q.fileDescs.map List.length).sum ∧
      merge q.fileDescs = [q.fileDescs.flatten] ∧
      q.fileDescs.flatten.length = q.fileDescCount ∧
      ∀ (std : StdSort) (fibmap : Nat → Nat → List UInt8 → Option (BitVec 32)),
        (∀ vec ∈ updateBlock fibmap q.cursor.mem (merge q.fileDescs), ∀ fd ∈ vec,
          ∃ p < content.length, fd.path = some p) ∧
        ∀ vec ∈ (writeOut std q.cursor.mem (updateBlock fibmap q.cursor.mem
          (merge q.fileDescs))).1, ∀ fd ∈ vec, ∃ p < content.length, fd.path = some p := by
  obtain ⟨groups, last, q, reads, -, loop, stored, count, some, -⟩ := processBlock_spec content [] 0
  rw [List.nil_append] at stored
  have filled : ∀ fd ∈ q.fileDescs.flatten, fd.Filled content := by
    rw [stored, ← List.map_flatten]
    exact reads.filled (ahead_start content)
  have total : q.fileDescs.flatten.length = q.fileDescCount := by
    rw [stored, ← List.map_flatten, List.length_map, count, Nat.zero_add]
  have merged : merge q.fileDescs = [q.fileDescs.flatten] := merge_eq (by simpa [stored] using some)
  refine ⟨groups, last, q, loop, reads, stored, fun vec member fd inside => ?_, ?_, merged, total,
    fun std fibmap => ⟨?_, ?_⟩⟩
  · exact filled fd (List.mem_flatten.mpr ⟨vec, member, inside⟩)
  · rw [← total, List.length_flatten]
  · refine paths_inside filled ?_
    rw [updateBlock_map FileDesc.path (fun _ _ => rfl), merge_flatten]
  · refine paths_inside filled ?_
    have kept := paths_kept std fibmap q.cursor.mem (merge q.fileDescs)
    rwa [merge_flatten] at kept

end DebianConf.Preload
