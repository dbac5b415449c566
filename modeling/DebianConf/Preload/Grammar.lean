import DebianConf.Preload.FileList

/-!
# The grammar of the preload list

What the readers make of a file, said of its bytes: a sequence of complete lines, and an end
that is no complete line. The block is rewritten while it is read, so each reading lemma says
what is still unread, which strings were returned, and what was kept below `dt_e`.
-/

namespace DebianConf.Preload

open DebianConf.Lib

/-! ## Lines and endings -/

/-- The three fields of a complete line. -/
structure Record where
  dev : List UInt8
  inode : List UInt8
  path : List UInt8

/-- `text` starts with the complete line `record`. -/
def Starts (record : Record) (text rest : List UInt8) : Prop :=
  ∃ text₁ text₂, Field Blank 32 text record.dev text₁ ∧ Field Blank 32 text₁ record.inode text₂ ∧
    Field Blank 10 text₂ record.path rest

/-- `text` is the complete lines `records` followed by `rest`. -/
inductive Lines : List UInt8 → List Record → List UInt8 → Prop
  | nil {text : List UInt8} : Lines text [] text
  | cons {text mid rest : List UInt8} {record : Record} {records : List Record} :
      Starts record text mid → Lines mid records rest → Lines text (record :: records) rest

/-- `text` does not start with a complete line; it may end in a path without newline. -/
inductive Ending : List UInt8 → Option (List UInt8) → Prop
  | blank {text : List UInt8} : AllBlank Blank text → Ending text none
  | dev {text dev : List UInt8} : Trailing Blank 32 text dev → Ending text none
  | noInode {text text₁ dev : List UInt8} :
      Field Blank 32 text dev text₁ → AllBlank Blank text₁ → Ending text none
  | inode {text text₁ dev inode : List UInt8} :
      Field Blank 32 text dev text₁ → Trailing Blank 32 text₁ inode → Ending text none
  | noPath {text text₁ text₂ dev inode : List UInt8} :
      Field Blank 32 text dev text₁ → Field Blank 32 text₁ inode text₂ → AllBlank Blank text₂ →
        Ending text none
  | path {text text₁ text₂ dev inode path : List UInt8} :
      Field Blank 32 text dev text₁ → Field Blank 32 text₁ inode text₂ →
        Trailing Blank 10 text₂ path → Ending text (some path)

theorem blank_space : Blank 32 := rfl

theorem blank_newline : Blank 10 := rfl

theorem starts_or_ending (text : List UInt8) :
    (∃ record rest, Starts record text rest) ∨ ∃ tail, Ending text tail := by
  rcases field_cases blank_space text with blanks | ⟨dev, text₁, first⟩ | ⟨dev, trailing⟩
  · exact Or.inr ⟨none, .blank blanks⟩
  · rcases field_cases blank_space text₁ with blanks | ⟨inode, text₂, second⟩ | ⟨inode, trailing⟩
    · exact Or.inr ⟨none, .noInode first blanks⟩
    · rcases field_cases blank_newline text₂ with blanks | ⟨path, rest, third⟩ | ⟨path, trailing⟩
      · exact Or.inr ⟨none, .noPath first second blanks⟩
      · exact Or.inl ⟨⟨dev, inode, path⟩, rest, text₁, text₂, first, second, third⟩
      · exact Or.inr ⟨some path, .path first second trailing⟩
    · exact Or.inr ⟨none, .inode first trailing⟩
  · exact Or.inr ⟨none, .dev trailing⟩

theorem Starts.rest_length {record : Record} {text rest : List UInt8}
    (starts : Starts record text rest) : rest.length < text.length := by
  obtain ⟨text₁, text₂, first, second, third⟩ := starts
  exact (third.rest_length.trans second.rest_length).trans first.rest_length

/-- Every text is complete lines and an end that is none. -/
theorem lines_exist (text : List UInt8) :
    ∃ records rest tail, Lines text records rest ∧ Ending rest tail := by
  induction length : text.length using Nat.strong_induction_on generalizing text with
  | _ n ih =>
    rcases starts_or_ending text with ⟨record, mid, starts⟩ | ⟨tail, ending⟩
    · obtain ⟨records, rest, tail, lines, ending⟩ :=
        ih mid.length (length ▸ starts.rest_length) mid rfl
      exact ⟨record :: records, rest, tail, .cons starts lines, ending⟩
    · exact ⟨[], text, tail, .nil, ending⟩

theorem Starts.append {record : Record} {text rest : List UInt8}
    (starts : Starts record text rest) (more : List UInt8) :
    Starts record (text ++ more) (rest ++ more) := by
  obtain ⟨text₁, text₂, first, second, third⟩ := starts
  exact ⟨_, _, first.append more, second.append more, third.append more⟩

theorem Lines.append {text rest : List UInt8} {records : List Record}
    (lines : Lines text records rest) (more : List UInt8) :
    Lines (text ++ more) records (rest ++ more) := by
  induction lines with
  | nil => exact .nil
  | cons starts _ ih => exact .cons (starts.append more) ih

theorem Lines.snoc {text mid rest : List UInt8} {records : List Record} {record : Record}
    (lines : Lines text records mid) (starts : Starts record mid rest) :
    Lines text (records ++ [record]) rest := by
  induction lines with
  | nil => exact .cons starts .nil
  | cons first _ ih => exact .cons first (ih starts)

theorem Lines.last {text rest : List UInt8} {records : List Record} {record : Record}
    (lines : Lines text (records ++ [record]) rest) :
    ∃ mid, Lines text records mid ∧ Starts record mid rest := by
  induction records generalizing text with
  | nil =>
    cases lines with
    | cons starts lines =>
      cases lines
      exact ⟨text, .nil, starts⟩
  | cons first records ih =>
    cases lines with
    | cons starts lines =>
      obtain ⟨mid, front, last⟩ := ih lines
      exact ⟨mid, .cons starts front, last⟩

theorem Starts.unique {record record' : Record} {text rest rest' : List UInt8}
    (starts : Starts record text rest) (starts' : Starts record' text rest') : rest = rest' := by
  obtain ⟨text₁, text₂, first, second, third⟩ := starts
  obtain ⟨text₁', text₂', first', second', third'⟩ := starts'
  obtain rfl := first.unique first'
  obtain rfl := second.unique second'
  exact third.unique third'

theorem Ending.not_starts {text rest : List UInt8} {tail : Option (List UInt8)} {record : Record}
    (ending : Ending text tail) : ¬ Starts record text rest := by
  rintro ⟨text₁, text₂, first', second', third'⟩
  cases ending with
  | blank blanks => exact first'.not_allBlank blanks
  | dev trailing => exact trailing.not_field first'
  | noInode first blanks =>
    obtain rfl := first.unique first'
    exact second'.not_allBlank blanks
  | inode first trailing =>
    obtain rfl := first.unique first'
    exact trailing.not_field second'
  | noPath first second blanks =>
    obtain rfl := first.unique first'
    obtain rfl := second.unique second'
    exact third'.not_allBlank blanks
  | path first second trailing =>
    obtain rfl := first.unique first'
    obtain rfl := second.unique second'
    exact trailing.not_field third'

/-- There is one way to read a text as complete lines and an end that is none. -/
theorem lines_unique {text rest rest' : List UInt8} {records records' : List Record}
    {tail tail' : Option (List UInt8)} (complete : Lines text records rest)
    (ending : Ending rest tail) (complete' : Lines text records' rest')
    (ending' : Ending rest' tail') : rest = rest' := by
  induction complete generalizing records' with
  | nil =>
    cases complete' with
    | nil => rfl
    | cons starts _ => exact absurd starts ending.not_starts
  | cons starts _ ih =>
    cases complete' with
    | nil => exact absurd starts ending'.not_starts
    | cons starts' complete' =>
      obtain rfl := starts.unique starts'
      exact ih ending complete'

/-! ## Reading a line -/

/-- `line` was read from `c` as the complete line `record`, and left `c'`. -/
structure LineRead (c : Cursor) (record : Record) (line : Line) (c' : Cursor) : Prop where
  dev : line.dev = upToNul record.dev
  inode : line.inode = upToNul record.inode
  path : line.path = upToNul record.path
  after : c.dtE ≤ line.dt
  dtE : c'.dtE = line.dt + record.path.length + 1
  drop : c'.mem.drop line.dt = record.path ++ 0 :: c'.unread
  frame : c'.mem.take c.dtE = c.mem.take c.dtE

section
variable {c c' : Cursor} {record : Record} {line : Line} {rest : List UInt8}

theorem take_of_take {α : Type*} {l l' : List α} {m n : Nat} (same : l'.take n = l.take n)
    (below : m ≤ n) : l'.take m = l.take m := by
  have cut := congrArg (List.take m) same
  rwa [List.take_take, List.take_take, Nat.min_eq_left below] at cut

theorem nextToken_nothing (delimiter : UInt8) (ended : c.unread = []) :
    ∃ c', nextToken delimiter c = (none, c') ∧ c'.mem = c.mem :=
  nextToken_blank delimiter (by simp [ended, AllBlank])

/-- A reader with nothing left to read stops and leaves the block as it is. -/
theorem readLine_nothing (ended : c.unread = []) :
    ∃ c', readLine c = (none, c') ∧ c'.mem = c.mem := by
  obtain ⟨c', token, same⟩ := nextToken_nothing 32 ended
  exact ⟨c', by simp only [readLine, token], same⟩

/-- The calls for dev and inode when both are complete fields. -/
theorem nextToken_two {dev inode text₁ text₂ : List UInt8}
    (first : Field Blank 32 c.unread dev text₁) (second : Field Blank 32 text₁ inode text₂) :
    ∃ p₁ c₁ p₂ c₂, nextToken 32 c = (some p₁, c₁) ∧ nextToken 32 c₁ = (some p₂, c₂) ∧
      cstr c₁.mem p₁ = upToNul dev ∧ cstr c₂.mem p₂ = upToNul inode ∧ c₂.unread = text₂ ∧
      c.dtE < c₂.dtE ∧ c₂.mem.take c.dtE = c.mem.take c.dtE := by
  obtain ⟨p₁, c₁, token₁, cut₁⟩ := nextToken_field first
  obtain ⟨p₂, c₂, token₂, cut₂⟩ := nextToken_field (cut₁.unread.symm ▸ second)
  have after₁ := cut₁.after
  have after₂ := cut₂.after
  have dtE₁ := cut₁.dtE
  have dtE₂ := cut₂.dtE
  refine ⟨p₁, c₁, p₂, c₂, token₁, token₂, cut₁.cstr, cut₂.cstr, cut₂.unread, by omega, ?_⟩
  rw [take_of_take cut₂.frame (by omega), take_of_take cut₁.frame (by omega)]

/-- A complete line is read. -/
theorem readLine_starts (starts : Starts record c.unread rest) :
    ∃ line c', readLine c = (some line, c') ∧ c'.unread = rest ∧ LineRead c record line c' := by
  obtain ⟨text₁, text₂, first, second, third⟩ := starts
  obtain ⟨p₁, c₁, p₂, c₂, token₁, token₂, dev, inode, unread, moved, kept⟩ :=
    nextToken_two first second
  obtain ⟨dt, c₃, token₃, cut⟩ := nextToken_field (unread.symm ▸ third)
  have after := cut.after
  refine ⟨_, c₃, by simp only [readLine, token₁, token₂, token₃]; rfl, cut.unread, dev, inode,
    cut.cstr, by show c.dtE ≤ dt; omega, cut.dtE, ?_, ?_⟩
  · rw [cut.unread]
    exact cut.drop
  · rw [take_of_take cut.frame (by omega), kept]

/-- A path without newline is read with its last byte twice. -/
theorem readLine_path {path : List UInt8} (ending : Ending c.unread (some path)) :
    ∃ line c' nonempty, readLine c = (some line, c') ∧ c'.unread = [] ∧
      line.path = upToNul (path ++ [path.getLast nonempty]) ∧ line.path = cstr c'.mem line.dt ∧
      c'.mem.take c.dtE = c.mem.take c.dtE := by
  cases ending with
  | path first second trailing =>
    obtain ⟨p₁, c₁, p₂, c₂, token₁, token₂, dev, inode, unread, moved, kept⟩ :=
      nextToken_two first second
    rcases nextToken_trailing (unread.symm ▸ trailing) with
      ⟨dt, c₃, token₃, shifted⟩ | ⟨start, -⟩
    · have after := shifted.after
      refine ⟨_, c₃, shifted.nonempty, by simp only [readLine, token₁, token₂, token₃]; rfl,
        shifted.unread, shifted.cstr, rfl, ?_⟩
      rw [take_of_take shifted.frame (by omega), kept]
    · omega

/-- At an end without a path the reader stops. It keeps what was read before, except for the
byte before `dt_e` when a dev token without delimiter starts right at `dt_e`. -/
theorem readLine_none (ending : Ending c.unread none) :
    ∃ c', readLine c = (none, c') ∧ c'.mem.take (c.dtE - 1) = c.mem.take (c.dtE - 1) ∧
      (¬ IsToken Blank 32 c.unread → c'.mem.take c.dtE = c.mem.take c.dtE) := by
  -- most ends keep everything below `dt_e`
  have all_kept : ∀ c', readLine c = (none, c') → c'.mem.take c.dtE = c.mem.take c.dtE →
      ∃ c', readLine c = (none, c') ∧ c'.mem.take (c.dtE - 1) = c.mem.take (c.dtE - 1) ∧
        (¬ IsToken Blank 32 c.unread → c'.mem.take c.dtE = c.mem.take c.dtE) :=
    fun c' stop kept => ⟨c', stop, take_of_take kept (Nat.sub_le _ _), fun _ => kept⟩
  cases ending with
  | blank blanks =>
    obtain ⟨c', token, same⟩ := nextToken_blank 32 blanks
    exact all_kept c' (by simp only [readLine, token]) (by rw [same])
  | @dev tok trailing =>
    rcases nextToken_trailing trailing with ⟨dt, c₁, token₁, shifted⟩ | ⟨-, c', token, same⟩
    · obtain ⟨c', token₂, same⟩ := nextToken_nothing 32 shifted.unread
      have after := shifted.after
      refine ⟨c', by simp only [readLine, token₁, token₂], ?_, fun apart => ?_⟩
      · rw [same, take_of_take shifted.frame (by omega)]
      · obtain ⟨_, _, _, token⟩ := trailing
        have gap : c.unread ≠ tok := fun adjacent => apart (adjacent.symm ▸ token)
        rw [same, take_of_take shifted.frame (shifted.dtE_le gap)]
    · exact all_kept c' (by simp only [readLine, token]) (by rw [same])
  | noInode first blanks =>
    obtain ⟨dev, c₁, token₁, cut⟩ := nextToken_field first
    obtain ⟨c', token₂, same⟩ := nextToken_blank 32 (cut.unread.symm ▸ blanks)
    refine all_kept c' (by simp only [readLine, token₁, token₂]) ?_
    rw [same, take_of_take cut.frame cut.after]
  | inode first trailing =>
    obtain ⟨dev, c₁, token₁, cut⟩ := nextToken_field first
    have after₁ := cut.after
    have dtE₁ := cut.dtE
    rcases nextToken_trailing (cut.unread.symm ▸ trailing) with
      ⟨dt, c₂, token₂, shifted⟩ | ⟨start, -⟩
    · obtain ⟨c', token₃, same⟩ := nextToken_nothing 10 shifted.unread
      have after₂ := shifted.after
      refine all_kept c' (by simp only [readLine, token₁, token₂, token₃]) ?_
      rw [same, take_of_take shifted.frame (by omega), take_of_take cut.frame cut.after]
    · omega
  | noPath first second blanks =>
    obtain ⟨p₁, c₁, p₂, c₂, token₁, token₂, dev, inode, unread, moved, kept⟩ :=
      nextToken_two first second
    obtain ⟨c', token₃, same⟩ := nextToken_blank 10 (unread.symm ▸ blanks)
    refine all_kept c' (by simp only [readLine, token₁, token₂, token₃]) ?_
    rw [same, kept]

/-- A dev token without delimiter that starts right at `dt_e`, but not at the start of the
block, is moved onto the byte before `dt_e`. -/
theorem readLine_adjacent (token : IsToken Blank 32 c.unread) (behind : c.dtE ≠ 0) :
    ∃ c' last, readLine c = (none, c') ∧ c'.mem = c.mem.take (c.dtE - 1) ++ c.unread ++ [last] := by
  have trailing : Trailing Blank 32 c.unread c.unread := ⟨[], by simp [AllBlank], rfl, token⟩
  rcases nextToken_trailing trailing with ⟨dt, c₁, token₁, shifted⟩ | ⟨start, -⟩
  · obtain ⟨c', token₂, same⟩ := nextToken_nothing 32 shifted.unread
    have after := shifted.after
    have below := shifted.below
    have length : (c.mem.drop (dt + 1)).length = (c.mem.drop c.dtE).length :=
      congrArg List.length shifted.token
    rw [List.length_drop, List.length_drop] at length
    have dt_eq : dt = c.dtE - 1 := by omega
    refine ⟨c', c.unread.getLast shifted.nonempty, by simp only [readLine, token₁, token₂], ?_⟩
    rw [same, shifted.mem, ← dt_eq]
  · exact absurd start behind

end

end DebianConf.Preload
