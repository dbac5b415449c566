import DebianConf.Lib.Memory
import DebianConf.Lib.Run
import DebianConf.Preload.Parser

/-!
# Memory safety of the tokenizer

`nextToken` again, on bare pointers and with every access to the block checked. It never fails
and does what `nextToken` does on a `Cursor`, so the bounds a `Cursor` carries are no assumption.
From there follows what holds of any sequence of calls.
-/

namespace DebianConf.Preload

open DebianConf.Lib

/-- The mapped block and the bare pointers `dt_s` and `dt_e`. -/
structure Block where
  mem : List UInt8
  dtS : Nat
  dtE : Nat
  deriving DecidableEq, Repr

/-- The block as `loadFile` and `readahead` map it (`preload.h:175-178`). -/
def Block.start (content : List UInt8) : Block := ⟨content, 0, 0⟩

/-- `memmove`, which fails when it reads or writes outside of the block. -/
def move (mem : List UInt8) (dst src n : Nat) : Option (List UInt8) :=
  if src + n ≤ mem.length ∧ dst + n ≤ mem.length then some (memmove mem dst src n) else none

/-- `nextToken(delimiter)` (`preload.h:269-320`); `none` is an access outside of the block. -/
def Block.nextToken (delimiter : UInt8) (b : Block) : Option (Option Nat × Block) := do
  let blkE := b.mem.length
  let dtS ← advance isBlank (some blkE) b.mem b.dtE
  if dtS = blkE then return (none, { b with dtS := dtS })
  let dtE ← advance (· != delimiter) (some blkE) b.mem dtS
  if dtE = blkE then
    if dtS = 0 then return (none, ⟨b.mem, dtS, dtE⟩)
    let mem ← move b.mem (dtS - 1) dtS (dtE - dtS)
    return (some (dtS - 1), ⟨mem, dtS - 1, dtE - 1 + 1⟩)
  else
    let mem ← store b.mem dtE 0
    return (some dtS, ⟨mem, dtS, dtE + 1⟩)

/-- A call of `nextToken` and what it returned. -/
structure Call where
  delimiter : UInt8
  result : Option Nat
  deriving DecidableEq, Repr

/-- The block after a call. -/
def Block.call (b : Block) (call : Call) : Option Block := do
  let (result, b') ← b.nextToken call.delimiter
  guard (result = call.result)
  return b'

/-- The sequences of calls on a mapped file, with arbitrary delimiters. -/
abbrev Calls (content : List UInt8) (log : List Call) (b : Block) : Prop :=
  Lib.Run Block.call (Block.start content) log b

/-- The pointers of a cursor without what it knows of them. -/
def Cursor.block (c : Cursor) : Block := ⟨c.mem, c.dtS, c.dtE⟩

theorem advance_scan (cond : UInt8 → Bool) {mem : List UInt8} {p : Nat} (inside : p ≤ mem.length) :
    advance cond (some mem.length) mem p = some (scanWhile cond (mem.drop p) p) := by
  rw [advance_to_end inside, scanWhile_eq]

/-- The checked call never fails, and does what `nextToken` does. -/
theorem nextToken_block (delimiter : UInt8) (c : Cursor) : c.block.nextToken delimiter =
    some ((nextToken delimiter c).1, (nextToken delimiter c).2.block) := by
  have dtS_le := scanWhile_le isBlank c.dtE_le
  have dtE_le := scanWhile_le (· != delimiter) dtS_le
  have forward : scanWhile isBlank (c.mem.drop c.dtE) c.dtE ≤
      scanWhile (· != delimiter) (c.mem.drop (scanWhile isBlank (c.mem.drop c.dtE) c.dtE))
        (scanWhile isBlank (c.mem.drop c.dtE) c.dtE) := by
    rw [scanWhile_eq (· != delimiter)]
    exact Nat.le_add_right _ _
  unfold Block.nextToken Cursor.block
  dsimp only
  simp only [Option.bind_eq_bind, advance_scan isBlank c.dtE_le,
    Option.bind_some, Preload.nextToken]
  by_cases nothing : scanWhile isBlank (c.mem.drop c.dtE) c.dtE = c.mem.length
  · rw [if_pos nothing, dif_pos nothing]
    rfl
  · rw [if_neg nothing, dif_neg nothing]
    simp only [advance_scan (· != delimiter) dtS_le, Option.bind_some]
    by_cases last : scanWhile (· != delimiter)
        (c.mem.drop (scanWhile isBlank (c.mem.drop c.dtE) c.dtE))
        (scanWhile isBlank (c.mem.drop c.dtE) c.dtE) = c.mem.length
    · rw [if_pos last, dif_pos last]
      by_cases start : scanWhile isBlank (c.mem.drop c.dtE) c.dtE = 0
      · rw [if_pos start, if_pos start]
        rfl
      · rw [if_neg start, if_neg start, move, if_pos ⟨by omega, by omega⟩]
        rfl
    · rw [if_neg last, dif_neg last, store, if_pos (by omega)]
      rfl

/-! ## Sequences of calls -/

/-- What is known of the block after the calls of `log`. -/
structure Called (content : List UInt8) (log : List Call) (c : Cursor) : Prop where
  length : c.mem.length = content.length
  tokens : log.countP (·.result.isSome) ≤ c.dtE
  ended : (∃ call ∈ log, call.result = none) → AllBlank Blank c.unread

section
variable {content : List UInt8} {log : List Call}

theorem call_result {b b' : Block} {call : Call} (called : b.call call = some b') :
    b.nextToken call.delimiter = some (call.result, b') := by
  simp only [Block.call, Option.bind_eq_bind, Option.bind_eq_some_iff, Prod.exists] at called
  obtain ⟨result, b'', token, _, guarded, same⟩ := called
  obtain rfl := Option.some.inj same
  have returned : result = call.result := by
    by_contra other
    rw [guard, if_neg other] at guarded
    cases guarded
  rw [token, returned]

theorem Called.ended_none {c : Cursor} (called : Called content log c)
    (ended : ∃ call ∈ log, call.result = none) (delimiter : UInt8) :
    (nextToken delimiter c).1 = none := by
  obtain ⟨c', token, -⟩ := nextToken_blank delimiter (called.ended ended)
  rw [token]

/-- One call keeps what is known, whether it returns a token or not. -/
theorem Called.step {c c' : Cursor} {call : Call} (called : Called content log c)
    (token : nextToken call.delimiter c = (call.result, c')) :
    Called content (log ++ [call]) c' := by
  have before := called.tokens
  cases found : call.result with
  | none =>
    rw [found] at token
    obtain ⟨same, moved, blanks⟩ := nextToken_none token
    refine ⟨by rw [same, called.length], ?_, fun _ => blanks⟩
    simp only [List.countP_append, List.countP_singleton, found, Option.isSome_none]
    simp only [Bool.false_eq_true, if_false]
    omega
  | some dt =>
    rw [found] at token
    obtain ⟨same, moved, -⟩ := nextToken_some token
    refine ⟨by rw [same, called.length], ?_, fun ended => ?_⟩
    · simp only [List.countP_append, List.countP_singleton, found, Option.isSome_some, if_true]
      omega
    · obtain ⟨earlier, member, nothing⟩ := ended
      rcases List.mem_append.mp member with before | last
      · have ended := called.ended_none ⟨earlier, before, nothing⟩ call.delimiter
        rw [token] at ended
        cases ended
      · rw [List.mem_singleton.mp last, found] at nothing
        cases nothing

/-- Every sequence of calls runs on a cursor. -/
theorem Calls.called {b : Block} (calls : Calls content log b) :
    ∃ c : Cursor, c.block = b ∧ Called content log c := by
  refine calls.invariant (fun log b => ∃ c : Cursor, c.block = b ∧ Called content log c) ?_ ?_
  · exact ⟨Cursor.start content, rfl, rfl, Nat.le_refl _, by simp⟩
  · intro log b call b' tracked fired
    obtain ⟨c, rfl, called⟩ := tracked
    have token := call_result fired
    rw [nextToken_block] at token
    obtain ⟨result, rfl⟩ := Prod.mk.inj (Option.some.inj token)
    exact ⟨_, rfl, called.step (Prod.ext result rfl)⟩

/-- `nextToken` stays in the block, makes progress, and is exact on delimited tokens: after any
sequence of calls, `dt_s` and `dt_e` are in the block, there were at most as many tokens as
bytes, and the next call makes no access outside of the block, moves `dt_e` on when it returns a
token, returns nothing when a call before it did, and cuts a token off at its delimiter, where
it writes the only byte it writes. -/
theorem nextToken_safe {b : Block} (calls : Calls content log b) :
    b.mem.length = content.length ∧ b.dtS ≤ content.length ∧ b.dtE ≤ content.length ∧
      log.countP (·.result.isSome) ≤ content.length ∧
      ∀ delimiter, ∃ result b', b.nextToken delimiter = some (result, b') ∧
        (result.isSome → b.dtE < b'.dtE) ∧
        ((∃ call ∈ log, call.result = none) → result = none) ∧
        ∀ gap tok rest, Cut Blank delimiter (b.mem.drop b.dtE) gap tok rest →
          result = some (b.dtE + gap.length) ∧
            b'.mem = b.mem.set (b.dtE + gap.length + tok.length) 0 ∧
            b'.mem.drop (b.dtE + gap.length) = tok ++ 0 :: rest := by
  obtain ⟨c, rfl, called⟩ := calls.called
  have dtS_le := called.length ▸ c.dtS_le
  have dtE_le := called.length ▸ c.dtE_le
  refine ⟨called.length, dtS_le, dtE_le, called.tokens.trans dtE_le, fun delimiter => ?_⟩
  refine ⟨_, _, nextToken_block delimiter c, fun some => ?_,
    fun ended => called.ended_none ended delimiter, fun gap tok rest cut => ?_⟩
  · obtain ⟨dt, token⟩ := Option.isSome_iff_exists.mp some
    exact (nextToken_some (Prod.ext token rfl)).2.1
  · obtain ⟨c', token, delimited⟩ := nextToken_cut (c := c) cut
    rw [token]
    exact ⟨rfl, delimited.mem, delimited.drop⟩

end

/-- The bytes `a b` split at the space and read to the end: the second token is moved down. -/
theorem nextToken_safe_two : ∃ b, Calls [97, 32, 98] [⟨32, some 0⟩, ⟨10, some 1⟩] b ∧
    b.mem.length = 3 ∧ b.dtS ≤ 3 ∧ b.dtE ≤ 3 ∧
    ∀ delimiter, ∃ result b', b.nextToken delimiter = some (result, b') := by
  obtain ⟨b, calls, -⟩ := run_of_replay Block.call (Block.start [97, 32, 98])
    [⟨32, some 0⟩, ⟨10, some 1⟩] (fun _ => True) (by decide +kernel)
  obtain ⟨length, dtS_le, dtE_le, -, call⟩ := nextToken_safe calls
  exact ⟨b, calls, length, dtS_le, dtE_le, fun delimiter =>
    let ⟨result, b', token, _⟩ := call delimiter
    ⟨result, b', token⟩⟩

end DebianConf.Preload
