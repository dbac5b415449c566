import DebianConf.Preload.FinalNewline
import DebianConf.Preload.ProcessBlock

/-!
# List files

`getFullMap` maps the file and no more, and the system fills its last page with zeros. A file
whose length is a multiple of the page size has no such bytes: a string that does not end in the
block is read on behind the mapping. Only the last token of a file can be such a string, when its
delimiter is missing. For the list files, which do not end in this way, the strings of the model
are those of the code, whatever lies behind the block.
-/

namespace DebianConf.Preload

open DebianConf.Lib

/-- The size of the pages that `mmap` maps. -/
def pageSize : Nat := 4096

/-- Bytes that can lie behind the mapping of a file: unless its last page is full, they start
with a zero. -/
def Behind (content behind : List UInt8) : Prop :=
  pageSize ∣ content.length ∨ ∃ more, behind = 0 :: more

/-- The start of a line that ends in the token `tok`, whose delimiter is missing. -/
inductive CutOff : List UInt8 → List UInt8 → Prop
  | dev {text tok : List UInt8} : Trailing Blank 32 text tok → CutOff text tok
  | inode {text text₁ dev tok : List UInt8} :
      Field Blank 32 text dev text₁ → Trailing Blank 32 text₁ tok → CutOff text tok
  | path {text text₁ text₂ dev inode tok : List UInt8} :
      Field Blank 32 text dev text₁ → Field Blank 32 text₁ inode text₂ →
        Trailing Blank 10 text₂ tok → CutOff text tok

/-- The file ends in a dev, an inode or a path without delimiter and NUL. -/
def Unfinished (content : List UInt8) : Prop :=
  ∃ records rest tok, Lines content records rest ∧ CutOff rest tok ∧ (0 : UInt8) ∉ tok

/-- A list for `readahead`, which uses the paths only. -/
structure ListFile where
  content : List UInt8
  path_ends : pageSize ∣ content.length → ¬ UnfinishedPath content

/-- A list for `sort`, which uses the numbers as well. -/
structure FinishedList where
  content : List UInt8
  ends : pageSize ∣ content.length → ¬ Unfinished content

theorem CutOff.ending {text tok : List UInt8} (cut : CutOff text tok) :
    ∃ tail, Ending text tail := by
  cases cut with
  | dev trailing => exact ⟨none, .dev trailing⟩
  | inode first trailing => exact ⟨none, .inode first trailing⟩
  | path first second trailing => exact ⟨some tok, .path first second trailing⟩

theorem CutOff.nonempty {text tok : List UInt8} (cut : CutOff text tok) : text ≠ [] := by
  rintro rfl
  cases cut with
  | dev trailing => exact trailing.not_allBlank (allBlank_nil Blank)
  | inode first _ => exact first.not_allBlank (allBlank_nil Blank)
  | path first _ _ => exact first.not_allBlank (allBlank_nil Blank)

theorem UnfinishedPath.unfinished {content : List UInt8} (unfinished : UnfinishedPath content) :
    Unfinished content := by
  obtain ⟨records, rest, path, complete, ending, no_nul⟩ := unfinished
  cases ending with
  | path first second trailing =>
    exact ⟨records, rest, path, complete, .path first second trailing, no_nul⟩

/-- What `sort` can read, `readahead` can. -/
def FinishedList.listFile (list : FinishedList) : ListFile where
  content := list.content
  path_ends full unfinished := list.ends full unfinished.unfinished

/-- A text that is complete lines is finished. -/
theorem Lines.finished {text : List UInt8} {records : List Record}
    (complete : Lines text records []) : ¬ Unfinished text := by
  rintro ⟨records', rest, tok, complete', cut, -⟩
  obtain ⟨tail, ending⟩ := cut.ending
  exact cut.nonempty
    (lines_unique complete (.blank (allBlank_nil Blank)) complete' ending).symm

/-- A text whose last line has no path has no unfinished one. -/
theorem Lines.path_finished {text rest : List UInt8} {records : List Record}
    (complete : Lines text records rest) (ending : Ending rest none) : ¬ UnfinishedPath text := by
  rintro ⟨records', rest', path, complete', ending', -⟩
  obtain rfl := lines_unique complete ending complete' ending'
  obtain ⟨_, stop, -⟩ := readLine_none (c := Cursor.start rest) ending
  obtain ⟨_, _, _, read, -⟩ := readLine_path (c := Cursor.start rest) ending'
  rw [stop] at read
  cases read

/-- What is printed is one text, so that one list file is all there can be. -/
theorem ListFile.printed_iff {text : Option (List UInt8)} {out : ListFile}
    (printed : text = some out.content) (Fits : List UInt8 → Prop) :
    (∃ out' : ListFile, text = some out'.content ∧ Fits out'.content) ↔ Fits out.content := by
  constructor
  · rintro ⟨out', printed', fits⟩
    rwa [Option.some.inj (printed.symm.trans printed')]
  · exact fun fits => ⟨out, printed, fits⟩

/-! ## Strings that end in the block -/

/-- The string at `p` ends in the block. -/
def EndsAt (mem : List UInt8) (p : Nat) : Prop := (0 : UInt8) ∈ mem.drop p

/-- A token that was returned, whose string ends in the block. -/
def Held (c : Cursor) (p : Nat) : Prop := EndsAt c.mem p ∧ p < c.dtE

section
variable {mem : List UInt8} {c c' : Cursor} {delimiter : UInt8} {dt p : Nat}

theorem EndsAt.mono {p' : Nat} (ends : EndsAt mem p') (le : p ≤ p') : EndsAt mem p := by
  have later : p + (p' - p) = p' := by omega
  rw [EndsAt, ← later, ← List.drop_drop] at ends
  exact List.mem_of_mem_drop ends

/-- A string that ends in the block does not depend on what lies behind it. -/
theorem EndsAt.cstr (ends : EndsAt mem p) (behind : List UInt8) :
    upToNul (mem.drop p ++ behind) = cstr mem p := upToNul_append ends behind

/-- A zero right behind the block ends every string. Behind a full page the string has to end in
the block. -/
theorem Behind.cstr {content behind : List UInt8} (follows : Behind content behind)
    (ends : pageSize ∣ content.length → EndsAt mem p) :
    upToNul (mem.drop p ++ behind) = cstr mem p := by
  rcases follows with full | ⟨more, rfl⟩
  · exact (ends full).cstr behind
  · exact upToNul_nul _ _

/-- A token ends in the block, unless it has neither delimiter nor NUL. -/
theorem token_ends (token : nextToken delimiter c = (some dt, c')) :
    EndsAt c'.mem dt ∨ ∃ tok, Trailing Blank delimiter c.unread tok ∧ (0 : UInt8) ∉ tok := by
  rcases cut_cases Blank delimiter c.unread with blanks | ⟨gap, tok, rest, cut⟩ | ⟨tok, trailing⟩
  · obtain ⟨_, none, -⟩ := nextToken_blank delimiter blanks
    rw [token] at none
    cases none
  · obtain ⟨_, some, delimited⟩ := nextToken_cut cut
    rw [token] at some
    cases some
    left
    rw [EndsAt, delimited.drop]
    simp
  · by_cases nul : (0 : UInt8) ∈ tok
    · rcases nextToken_trailing trailing with ⟨_, _, some, shifted⟩ | ⟨-, _, none, -⟩
      · rw [token] at some
        cases some
        left
        rw [EndsAt, shifted.drop]
        exact List.mem_append_left _ nul
      · rw [token] at none
        cases none
    · exact Or.inr ⟨tok, trailing, nul⟩

/-- After a token comes the rest of the block, or nothing when its delimiter was missing. -/
theorem token_field (blank : Blank delimiter) (token : nextToken delimiter c = (some dt, c')) :
    (∃ tok, Field Blank delimiter c.unread tok c'.unread) ∨ c'.unread = [] := by
  rcases field_cases blank c.unread with blanks | ⟨tok, rest, field⟩ | ⟨tok, trailing⟩
  · obtain ⟨_, none, -⟩ := nextToken_blank delimiter blanks
    rw [token] at none
    cases none
  · obtain ⟨_, _, some, delimited⟩ := nextToken_field field
    rw [token] at some
    cases some
    exact Or.inl ⟨tok, delimited.unread.symm ▸ field⟩
  · rcases nextToken_trailing trailing with ⟨_, _, some, shifted⟩ | ⟨-, _, none, -⟩
    · rw [token] at some
      cases some
      exact Or.inr shifted.unread
    · rw [token] at none
      cases none

theorem token_unread (token : nextToken delimiter c = (some dt, c')) : c.unread ≠ [] := by
  intro nothing
  obtain ⟨_, none, -⟩ := nextToken_nothing delimiter nothing
  rw [token] at none
  cases none

theorem held_new (token : nextToken delimiter c = (some dt, c')) (ends : EndsAt c'.mem dt) :
    Held c' dt := by
  refine ⟨ends, ?_⟩
  rcases nextToken_cases delimiter c with ⟨_, none, -⟩ | ⟨_, _, tok, rest, some, delimited⟩ |
    ⟨_, _, tok, some, shifted⟩
  · rw [token] at none
    cases none
  · rw [token] at some
    cases some
    rw [delimited.dtE]
    omega
  · rw [token] at some
    cases some
    have below := shifted.below
    rw [shifted.dtE, shifted.length]
    omega

/-- Later tokens start behind a token that was returned, so that it ends in the block as they
do. -/
theorem Held.token (held : Held c p) (token : nextToken delimiter c = (some dt, c'))
    (ends : EndsAt c'.mem dt) : Held c' p := by
  have moved := nextToken_some token
  have before := held.2
  exact ⟨ends.mono (by omega), by omega⟩

theorem Held.none (held : Held c p) (token : nextToken delimiter c = (none, c')) : Held c' p := by
  obtain ⟨same, moved, -⟩ := nextToken_none token
  exact ⟨same ▸ held.1, held.2.trans_le moved⟩

end

/-! ## What a reader takes from a list -/

/-- `dt` is returned to a reader of the list, which then is at `c`. -/
inductive Returned (content : List UInt8) : Cursor → Nat → Prop
  | dev {lines : List Line} {c c₁ : Cursor} {dt : Nat} :
      Reads (Cursor.start content) lines c → nextToken 32 c = (some dt, c₁) →
        Returned content c₁ dt
  | inode {lines : List Line} {c c₁ c₂ : Cursor} {dev dt : Nat} :
      Reads (Cursor.start content) lines c → nextToken 32 c = (some dev, c₁) →
        nextToken 32 c₁ = (some dt, c₂) → Returned content c₂ dt
  | path {lines : List Line} {c c₁ c₂ c₃ : Cursor} {dev inode dt : Nat} :
      Reads (Cursor.start content) lines c → nextToken 32 c = (some dev, c₁) →
        nextToken 32 c₁ = (some inode, c₂) → nextToken 10 c₂ = (some dt, c₃) →
          Returned content c₃ dt

section
variable {content : List UInt8} {lines : List Line} {c c' c₁ c₂ c₃ : Cursor}
  {dev inode dt p : Nat}

/-- The lines that are read are complete ones, and nothing is left after another one. -/
theorem Reads.texts (reads : Reads c lines c') :
    (∃ records, Lines c.unread records c'.unread) ∨ c'.unread = [] := by
  induction reads with
  | nil => exact Or.inl ⟨[], .nil⟩
  | @cons c c₁ last line lines read reads ih =>
    rcases starts_or_ending c.unread with ⟨record, rest, starts⟩ | ⟨tail, ending⟩
    · obtain ⟨_, _, read', rfl, -⟩ := readLine_starts starts
      rw [read] at read'
      cases read'
      exact ih.imp (fun ⟨records, complete⟩ => ⟨record :: records, .cons starts complete⟩) id
    · cases tail with
      | none =>
        obtain ⟨_, stop, -⟩ := readLine_none ending
        rw [read] at stop
        cases stop
      | some path =>
        obtain ⟨_, _, _, read', ended, -⟩ := readLine_path ending
        rw [read] at read'
        cases read'
        -- a path without newline is the last thing that is read
        cases reads with
        | nil => exact Or.inr ended
        | cons next _ =>
          obtain ⟨_, stop, -⟩ := readLine_nothing ended
          rw [next] at stop
          cases stop

/-- Where a reader finds another token, it has read complete lines. -/
theorem Reads.complete (reads : Reads (Cursor.start content) lines c) (more : c.unread ≠ []) :
    ∃ records, Lines content records c.unread := reads.texts.resolve_right more

theorem returned_dev (reads : Reads (Cursor.start content) lines c)
    (first : nextToken 32 c = (some dt, c₁)) : EndsAt c₁.mem dt ∨ Unfinished content := by
  refine (token_ends first).imp_right fun ⟨tok, trailing, no_nul⟩ => ?_
  obtain ⟨records, complete⟩ := reads.complete (token_unread first)
  exact ⟨records, _, tok, complete, .dev trailing, no_nul⟩

theorem returned_inode (reads : Reads (Cursor.start content) lines c)
    (first : nextToken 32 c = (some dev, c₁)) (second : nextToken 32 c₁ = (some dt, c₂)) :
    EndsAt c₂.mem dt ∨ Unfinished content := by
  refine (token_ends second).imp_right fun ⟨tok, trailing, no_nul⟩ => ?_
  obtain ⟨records, complete⟩ := reads.complete (token_unread first)
  obtain ⟨_, field⟩ := (token_field blank_space first).resolve_right (token_unread second)
  exact ⟨records, _, tok, complete, .inode field trailing, no_nul⟩

theorem returned_path (reads : Reads (Cursor.start content) lines c)
    (first : nextToken 32 c = (some dev, c₁)) (second : nextToken 32 c₁ = (some inode, c₂))
    (third : nextToken 10 c₂ = (some dt, c₃)) : EndsAt c₃.mem dt ∨ UnfinishedPath content := by
  refine (token_ends third).imp_right fun ⟨tok, trailing, no_nul⟩ => ?_
  obtain ⟨records, complete⟩ := reads.complete (token_unread first)
  obtain ⟨_, field⟩ := (token_field blank_space first).resolve_right (token_unread second)
  obtain ⟨_, field'⟩ := (token_field blank_space second).resolve_right (token_unread third)
  exact ⟨records, _, tok, complete, .path field field' trailing, no_nul⟩

/-- Of a finished list every token ends in the block. -/
theorem Returned.ends (finished : ¬ Unfinished content) (returned : Returned content c dt) :
    EndsAt c.mem dt := by
  cases returned with
  | dev reads first => exact (returned_dev reads first).resolve_right finished
  | inode reads first second => exact (returned_inode reads first second).resolve_right finished
  | path reads first second third =>
    exact (returned_path reads first second third).resolve_right fun unfinished =>
      finished unfinished.unfinished

/-- Reading a line keeps the tokens that were returned before, and its path. -/
theorem held_line {line : Line} (finished : ¬ Unfinished content)
    (reads : Reads (Cursor.start content) lines c) (read : readLine c = (some line, c')) :
    (∀ p, Held c p → Held c' p) ∧ Held c' line.dt := by
  obtain ⟨dev, c₁, inode, c₂, first, second, third, -⟩ := readLine_tokens read
  have ends₁ := (Returned.dev reads first).ends finished
  have ends₂ := (Returned.inode reads first second).ends finished
  have ends₃ := (Returned.path reads first second third).ends finished
  exact ⟨fun p held => ((held.token first ends₁).token second ends₂).token third ends₃,
    held_new third ends₃⟩

theorem held_stop (finished : ¬ Unfinished content)
    (reads : Reads (Cursor.start content) lines c) (stop : readLine c = (none, c'))
    (held : Held c p) : Held c' p := by
  unfold readLine at stop
  split at stop
  · next first =>
    cases stop
    exact held.none first
  · next first =>
    have held₁ := held.token first ((Returned.dev reads first).ends finished)
    split at stop
    · next second =>
      cases stop
      exact held₁.none second
    · next second =>
      have held₂ := held₁.token second ((Returned.inode reads first second).ends finished)
      split at stop
      · next third =>
        cases stop
        exact held₂.none third
      · cases stop

/-- The paths of the lines that were read still end in the block. -/
theorem Reads.held (finished : ¬ Unfinished content) {front : List Line}
    (before : Reads (Cursor.start content) front c) (reads : Reads c lines c')
    (held : ∀ line ∈ front, Held c line.dt) : ∀ line ∈ front ++ lines, Held c' line.dt := by
  induction reads generalizing front with
  | nil => simpa using held
  | @cons c c₁ last line lines read _ ih =>
    obtain ⟨kept, new⟩ := held_line finished before read
    have all : ∀ line' ∈ front ++ [line], Held c₁ line'.dt := by
      intro line' member
      rcases List.mem_append.mp member with earlier | here
      · exact kept _ (held line' earlier)
      · rw [List.mem_singleton.mp here]
        exact new
    have rest := ih (before.append (.cons read .nil)) all
    rwa [List.append_assoc, List.singleton_append] at rest

/-- When a finished list has been read, every path that is stored ends in the block. -/
theorem stored_ends (finished : ¬ Unfinished content) {q : Parser}
    (loaded : loadFile content = some q) {fd : FileDesc} (member : fd ∈ q.fileDescs.flatten)
    (path : fd.path = some dt) : EndsAt q.cursor.mem dt := by
  by_cases long : 50 ≤ content.length
  · have nonempty : content ≠ [] := by
      rintro rfl
      simp at long
    obtain ⟨groups, last, q', reads, stop, done, stored, -⟩ := processBlock_spec content [] 0
    rw [loadFile, if_neg nonempty] at loaded
    obtain rfl : q = q' := Option.some.inj (loaded.symm.trans done)
    rw [stored, List.nil_append, ← List.map_flatten] at member
    obtain ⟨line, there, rfl⟩ := List.mem_map.mp member
    obtain rfl : line.dt = dt := Option.some.inj path
    have held := Reads.held finished .nil reads (by simp) line there
    exact (held_stop finished reads (stop long) held).1
  · obtain ⟨q', done, nothing⟩ := loadFile_short (Nat.lt_of_not_le long)
    obtain rfl : q = q' := Option.some.inj (loaded.symm.trans done)
    rw [nothing] at member
    cases member

end

/-- The path that `readahead` opens does not depend on what lies behind the block. -/
theorem ListFile.path_cstr (list : ListFile) {lines : List Line} {c c₁ c₂ c₃ : Cursor}
    {dev inode dt : Nat} (reads : Reads (Cursor.start list.content) lines c)
    (first : nextToken 32 c = (some dev, c₁)) (second : nextToken 32 c₁ = (some inode, c₂))
    (third : nextToken 10 c₂ = (some dt, c₃)) {behind : List UInt8}
    (follows : Behind list.content behind) :
    upToNul (c₃.mem.drop dt ++ behind) = cstr c₃.mem dt := by
  exact follows.cstr fun full =>
    (returned_path reads first second third).resolve_right (list.path_ends full)

/-- Nor does any token that `loadFile` converts or stores. -/
theorem FinishedList.token_cstr (list : FinishedList) {c : Cursor} {dt : Nat}
    (returned : Returned list.content c dt) {behind : List UInt8}
    (follows : Behind list.content behind) : upToNul (c.mem.drop dt ++ behind) = cstr c.mem dt :=
  follows.cstr fun full => returned.ends (list.ends full)

/-- Nor does a path that `UpdateBlock` opens and `WriteOut` prints, when the block has been read. -/
theorem FinishedList.stored_cstr (list : FinishedList) {q : Parser}
    (loaded : loadFile list.content = some q) {fd : FileDesc} (member : fd ∈ q.fileDescs.flatten)
    {dt : Nat} (path : fd.path = some dt) {behind : List UInt8}
    (follows : Behind list.content behind) :
    upToNul (q.cursor.mem.drop dt ++ behind) = fd.text q.cursor.mem := by
  rw [FileDesc.text, path]
  exact follows.cstr fun full => stored_ends (list.ends full) loaded member path

end DebianConf.Preload
