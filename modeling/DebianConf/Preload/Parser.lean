import DebianConf.Lib.Fields
import DebianConf.Lib.Numerals
import Mathlib.Data.List.TakeWhile

/-!
# The tokenizer of the preload list

Model of `preload_parser` in `src/root/preload.h`. The mapped file is a list of bytes, and a
`char*` into it is an offset: `blk_s` is 0 and `blk_e` the length. A string ends at the end of the
block at the latest: `mmap` fills the last page of a file with zeros. It does not where the length
is a multiple of the page size; which strings then go on behind the block is the subject of
`ListFile`.
-/

namespace DebianConf.Preload

open DebianConf.Lib

/-- `*p <= ' '`, where `char` is signed (`preload.h:273`). -/
def isBlank (b : UInt8) : Bool := b.toInt8 ≤ 32

/-- Control characters and the space are blank, and so are the bytes from 128 on. -/
theorem isBlank_iff {b : UInt8} : isBlank b = true ↔ b.toNat ≤ 32 ∨ 128 ≤ b.toNat := by
  have small := b.toNat_lt
  have signed : b.toInt8.toInt = if 2 * b.toNat < 256 then (b.toNat : Int) else b.toNat - 256 := by
    show b.toBitVec.toInt = _
    rw [BitVec.toInt_eq_toNat_cond]
    rfl
  have space : (32 : Int8).toInt = 32 := rfl
  rw [isBlank, decide_eq_true_eq, Int8.le_iff_toInt_le, signed, space]
  split <;> omega

/-- The bytes before the first NUL. -/
def upToNul (bytes : List UInt8) : List UInt8 := bytes.takeWhile (· != 0)

/-- The C string at `p`, in a block that is followed by a NUL or has one at or after `p`. -/
def cstr (mem : List UInt8) (p : Nat) : List UInt8 := upToNul (mem.drop p)

/-- `while (p != blk_e && cond(*p)) ++p;`, where `bytes` are those from `p` to `blk_e`. -/
def scanWhile (cond : UInt8 → Bool) : List UInt8 → Nat → Nat
  | [], p => p
  | b :: bytes, p => if cond b then scanWhile cond bytes (p + 1) else p

/-- `memmove(mem + dst, mem + src, n)`. -/
def memmove (mem : List UInt8) (dst src n : Nat) : List UInt8 :=
  mem.take dst ++ (mem.drop src).take n ++ mem.drop (dst + n)

theorem scanWhile_eq (cond : UInt8 → Bool) (bytes : List UInt8) (p : Nat) :
    scanWhile cond bytes p = p + (bytes.takeWhile cond).length := by
  induction bytes generalizing p with
  | nil => rfl
  | cons b bytes ih =>
    rw [scanWhile, List.takeWhile_cons]
    split
    · rw [ih, List.length_cons]
      omega
    · rfl

theorem scanWhile_le (cond : UInt8 → Bool) {mem : List UInt8} {p : Nat} (inside : p ≤ mem.length) :
    scanWhile cond (mem.drop p) p ≤ mem.length := by
  have bound := (List.takeWhile_prefix cond (l := mem.drop p)).length_le
  rw [List.length_drop] at bound
  rw [scanWhile_eq]
  omega

theorem memmove_length {mem : List UInt8} {dst src n : Nat} (before : dst ≤ src)
    (inside : src + n ≤ mem.length) : (memmove mem dst src n).length = mem.length := by
  simp only [memmove, List.length_append, List.length_take, List.length_drop]
  omega

/-- The mapped block with the pointers `dt_s` and `dt_e`, which stay inside of it
(`preload.h:158-161`). -/
structure Cursor where
  mem : List UInt8
  dtS : Nat
  dtE : Nat
  dtS_le : dtS ≤ mem.length
  dtE_le : dtE ≤ mem.length

/-- The cursor `loadFile` and `readahead` start from (`preload.h:175-178`, `196-199`). -/
def Cursor.start (content : List UInt8) : Cursor :=
  ⟨content, 0, 0, Nat.zero_le _, Nat.zero_le _⟩

/-- `*dt_e = 0; ++dt_e;` (`preload.h:315-318`) -/
def Cursor.cut (c : Cursor) (dtS dtE : Nat) (dtS_le : dtS ≤ c.mem.length)
    (inside : dtE < c.mem.length) : Cursor where
  mem := c.mem.set dtE 0
  dtS := dtS
  dtE := dtE + 1
  dtS_le := by simpa using dtS_le
  dtE_le := by
    rw [List.length_set]
    exact inside

/-- `memmove(dt_s - 1, dt_s, dt_e - dt_s); --dt_s; --dt_e; ++dt_e;` at the end of the block, where
no NUL is written (`preload.h:294-296`, `318`). -/
def Cursor.moveDown (c : Cursor) (dtS dtE : Nat) (nonempty : dtS < dtE)
    (last : dtE = c.mem.length) : Cursor where
  mem := memmove c.mem (dtS - 1) dtS (dtE - dtS)
  dtS := dtS - 1
  dtE := dtE - 1 + 1
  dtS_le := by
    rw [memmove_length (Nat.sub_le _ _) (by omega)]
    omega
  dtE_le := by
    rw [memmove_length (Nat.sub_le _ _) (by omega)]
    omega

/-- `nextToken(delimiter)` (`preload.h:269-320`). There never is a next block, so the branch for
one is left out. -/
def nextToken (delimiter : UInt8) (c : Cursor) : Option Nat × Cursor :=
  let dtS := scanWhile isBlank (c.mem.drop c.dtE) c.dtE
  have dtS_le := scanWhile_le _ c.dtE_le
  if nothing : dtS = c.mem.length then (none, { c with dtS := dtS, dtS_le := dtS_le })
  else
    let dtE := scanWhile (· != delimiter) (c.mem.drop dtS) dtS
    have dtE_le := scanWhile_le _ dtS_le
    if last : dtE = c.mem.length then
      if dtS = 0 then (none, ⟨c.mem, dtS, dtE, dtS_le, dtE_le⟩)
      else
        have nonempty := last ▸ Nat.lt_of_le_of_ne dtS_le nothing
        (some (dtS - 1), c.moveDown dtS dtE nonempty last)
    else (some dtS, c.cut dtS dtE dtS_le (Nat.lt_of_le_of_ne dtE_le last))

/-! ## What a call does -/

/-- Moving the bytes from `s` to the end down by one leaves the last of them twice. -/
theorem memmove_last {mem tok : List UInt8} {s : Nat} (there : mem.drop s = tok) (pos : s ≠ 0)
    (nonempty : tok ≠ []) : memmove mem (s - 1) s (mem.length - s) =
      mem.take (s - 1) ++ tok ++ [tok.getLast nonempty] := by
  have length : mem.length - s = tok.length := by rw [← there, List.length_drop]
  have positive : 0 < tok.length := List.length_pos_iff.mpr nonempty
  have last : mem.drop (s - 1 + (mem.length - s)) = [tok.getLast nonempty] := by
    have index : s - 1 + (mem.length - s) = s + (tok.length - 1) := by omega
    rw [index, ← List.drop_drop, there, List.drop_length_sub_one nonempty]
  rw [memmove, last, length, there, List.take_length]

theorem scanWhile_append {cond : UInt8 → Bool} {front rest : List UInt8}
    (all : ∀ b ∈ front, cond b = true) (stop : ∀ b ∈ rest.head?, cond b = false) (p : Nat) :
    scanWhile cond (front ++ rest) p = p + front.length := by
  have ended : rest.takeWhile cond = [] := by
    cases rest with
    | nil => rfl
    | cons b rest => exact List.takeWhile_cons_of_neg (by simp [stop b rfl])
  rw [scanWhile_eq, List.takeWhile_append_of_pos all, ended, List.append_nil]

/-- The part of the block that is not read yet. -/
def Cursor.unread (c : Cursor) : List UInt8 := c.mem.drop c.dtE

/-- Blank bytes. -/
abbrev Blank : UInt8 → Prop := fun b => isBlank b = true

/-- `c'` is `c` after the delimited token `tok` at `dt`: its delimiter is now a NUL. -/
structure Delimited (c : Cursor) (tok rest : List UInt8) (dt : Nat) (c' : Cursor) : Prop where
  after : c.dtE ≤ dt
  token : ∃ delimiter, c.mem.drop dt = tok ++ delimiter :: rest
  mem : c'.mem = c.mem.set (dt + tok.length) 0
  dtS : c'.dtS = dt
  dtE : c'.dtE = dt + tok.length + 1

/-- `c'` is `c` after the undelimited last token `tok`, which now starts at `dt`, one byte
below its old place. The last byte of the block is still there. -/
structure Shifted (c : Cursor) (tok : List UInt8) (dt : Nat) (c' : Cursor) : Prop where
  after : c.dtE ≤ dt + 1
  token : c.mem.drop (dt + 1) = tok
  nonempty : tok ≠ []
  mem : c'.mem = c.mem.take dt ++ tok ++ [tok.getLast nonempty]
  dtS : c'.dtS = dt
  dtE : c'.dtE = c'.mem.length

section
variable {c : Cursor} {delimiter : UInt8} {tok rest : List UInt8}

theorem Cursor.unread_length (c : Cursor) : c.dtE + c.unread.length = c.mem.length := by
  have inside := c.dtE_le
  rw [Cursor.unread, List.length_drop]
  omega

/-- Skipping blanks stops at the first byte that is none. -/
theorem scan_gap {gap more : List UInt8} (split : c.unread = gap ++ more)
    (blanks : AllBlank Blank gap) (head : ∀ b ∈ more.head?, ¬ Blank b) :
    scanWhile isBlank (c.mem.drop c.dtE) c.dtE = c.dtE + gap.length ∧
      c.mem.drop (c.dtE + gap.length) = more := by
  constructor
  · have scan := scanWhile_append blanks (by simpa using head) c.dtE
    rwa [← split] at scan
  · rw [← List.drop_drop]
    show c.unread.drop gap.length = more
    rw [split, List.drop_left]

/-- Scanning for the delimiter runs over a token. -/
theorem scan_token (undelimited : delimiter ∉ tok) (rest : List UInt8)
    (head : ∀ b ∈ rest.head?, b = delimiter) (p : Nat) :
    scanWhile (· != delimiter) (tok ++ rest) p = p + tok.length := by
  refine scanWhile_append (fun x member => ?_) (fun b first => by simp [head b first]) p
  simpa using fun same : x = delimiter => undelimited (same ▸ member)

theorem nextToken_blank (delimiter : UInt8) (blanks : AllBlank Blank c.unread) :
    ∃ c', nextToken delimiter c = (none, c') ∧ c'.mem = c.mem := by
  obtain ⟨skip, -⟩ := scan_gap (List.append_nil _).symm blanks (by simp)
  rw [c.unread_length] at skip
  simp only [nextToken]
  rw [dif_pos skip]
  exact ⟨_, rfl, rfl⟩

/-- A token is cut off at its delimiter. -/
theorem nextToken_cut {gap : List UInt8} (cut : Lib.Cut Blank delimiter c.unread gap tok rest) :
    ∃ c', nextToken delimiter c = (some (c.dtE + gap.length), c') ∧
      Delimited c tok rest (c.dtE + gap.length) c' := by
  have length := c.unread_length
  have head : ∀ b ∈ (tok ++ delimiter :: rest).head?, ¬ Blank b := by
    intro b first
    apply cut.head b
    cases tok with
    | nil => simpa using first
    | cons x tok => simpa using first
  obtain ⟨skip, there⟩ := scan_gap cut.split cut.blanks head
  have stop := scan_token cut.first (delimiter :: rest) (by simp) (c.dtE + gap.length)
  rw [← there] at stop
  simp only [cut.split, List.length_append, List.length_cons] at length
  simp only [nextToken]
  rw [dif_neg (by omega), dif_neg (by rw [skip, stop]; omega)]
  refine ⟨_, Prod.ext (congrArg some skip) rfl, ⟨by omega, ⟨delimiter, there⟩, ?_, skip, ?_⟩⟩
  · show c.mem.set _ 0 = _
    rw [skip, stop]
  · show _ + 1 = _
    rw [skip, stop]

theorem nextToken_field (field : Field Blank delimiter c.unread tok rest) :
    ∃ dt c', nextToken delimiter c = (some dt, c') ∧ Delimited c tok rest dt c' := by
  obtain ⟨gap, cut⟩ := field.cut
  obtain ⟨c', token, delimited⟩ := nextToken_cut cut
  exact ⟨_, c', token, delimited⟩

/-- A token without delimiter is moved down, unless it is the only one of the block. -/
theorem nextToken_trailing (trailing : Trailing Blank delimiter c.unread tok) :
    (∃ dt c', nextToken delimiter c = (some dt, c') ∧ Shifted c tok dt c') ∨
      (c.dtE = 0 ∧ ∃ c', nextToken delimiter c = (none, c') ∧ c'.mem = c.mem) := by
  obtain ⟨gap, blanks, split, token⟩ := trailing
  obtain ⟨b, tail, rfl, head⟩ := token.head
  have length := c.unread_length
  obtain ⟨skip, there⟩ := scan_gap split blanks (by simpa using head)
  have stop := scan_token token.undelimited [] (by simp) (c.dtE + gap.length)
  rw [List.append_nil, List.length_cons] at stop
  simp only [split, List.length_append, List.length_cons] at length
  have last : scanWhile (· != delimiter) (c.mem.drop (c.dtE + gap.length))
      (c.dtE + gap.length) = c.mem.length := by
    rw [there, stop]
    omega
  simp only [nextToken]
  rw [dif_neg (by omega), dif_pos (by rw [skip, last])]
  by_cases start : scanWhile isBlank (c.mem.drop c.dtE) c.dtE = 0
  · rw [if_pos start]
    exact Or.inr ⟨by omega, _, rfl, rfl⟩
  · rw [if_neg start]
    rw [skip] at start
    have moved := memmove_last there start (List.cons_ne_nil b tail)
    have below : c.dtE + gap.length - 1 + 1 = c.dtE + gap.length := by omega
    refine Or.inl ⟨_, _, rfl, ⟨by omega, by rw [skip, below, there], List.cons_ne_nil b tail, ?_,
      rfl, ?_⟩⟩
    · show memmove c.mem _ _ _ = _
      rw [skip, last, moved]
    · show _ - 1 + 1 = (memmove c.mem _ _ _).length
      rw [skip, last, memmove_length (Nat.sub_le _ _) (by omega)]
      omega

/-- A call returns a delimited token, returns the last token moved down, or returns nothing
and leaves the block as it is. -/
theorem nextToken_cases (delimiter : UInt8) (c : Cursor) :
    (∃ c', nextToken delimiter c = (none, c') ∧ c'.mem = c.mem) ∨
      (∃ dt c' tok rest, nextToken delimiter c = (some dt, c') ∧ Delimited c tok rest dt c') ∨
      ∃ dt c' tok, nextToken delimiter c = (some dt, c') ∧ Shifted c tok dt c' := by
  rcases cut_cases Blank delimiter c.unread with blanks | ⟨gap, tok, rest, cut⟩ | ⟨tok, trailing⟩
  · exact Or.inl (nextToken_blank delimiter blanks)
  · obtain ⟨c', token, delimited⟩ := nextToken_cut cut
    exact Or.inr (Or.inl ⟨_, c', tok, rest, token, delimited⟩)
  · rcases nextToken_trailing trailing with ⟨dt, c', token, shifted⟩ | ⟨-, c', token, same⟩
    · exact Or.inr (Or.inr ⟨dt, c', tok, token, shifted⟩)
    · exact Or.inl ⟨c', token, same⟩

/-- A call that returns nothing leaves only blanks unread. -/
theorem nextToken_none {c' : Cursor} (nothing : nextToken delimiter c = (none, c')) :
    c'.mem = c.mem ∧ c.dtE ≤ c'.dtE ∧ AllBlank Blank c'.unread := by
  simp only [nextToken] at nothing
  split at nothing
  · next skipped =>
    cases nothing
    refine ⟨rfl, Nat.le_refl _, fun b member => ?_⟩
    rw [scanWhile_eq] at skipped
    have length := c.unread_length
    have all : (c.mem.drop c.dtE).takeWhile isBlank = c.unread := by
      apply (List.takeWhile_prefix _).eq_of_length
      show _ = c.unread.length
      omega
    exact List.mem_takeWhile_imp (all.symm ▸ member)
  · split at nothing
    · next last =>
      split at nothing
      · cases nothing
        refine ⟨rfl, ?_, fun b member => ?_⟩
        · show c.dtE ≤ scanWhile _ _ _
          rw [last]
          exact c.dtE_le
        · rw [Cursor.unread] at member
          simp only [last, List.drop_length] at member
          cases member
      · cases nothing
    · cases nothing

/-! ## What a token leaves behind -/

theorem upToNul_nul (bytes more : List UInt8) : upToNul (bytes ++ 0 :: more) = upToNul bytes := by
  unfold upToNul
  induction bytes with
  | nil => rfl
  | cons b bytes ih =>
    rw [List.cons_append, List.takeWhile_cons, List.takeWhile_cons, ih]

theorem upToNul_append {bytes : List UInt8} (nul : (0 : UInt8) ∈ bytes) (more : List UInt8) :
    upToNul (bytes ++ more) = upToNul bytes := by
  obtain ⟨front, back, rfl⟩ := List.append_of_mem nul
  rw [List.append_assoc, List.cons_append, upToNul_nul, upToNul_nul]

theorem upToNul_append_of_no_nul {bytes : List UInt8} (no_nul : (0 : UInt8) ∉ bytes)
    (more : List UInt8) : upToNul (bytes ++ more) = bytes ++ upToNul more := by
  rw [upToNul, List.takeWhile_append_of_pos, upToNul]
  intro b member
  simpa using fun same : b = 0 => no_nul (same ▸ member)

theorem upToNul_eq_self {bytes : List UInt8} (no_nul : (0 : UInt8) ∉ bytes) :
    upToNul bytes = bytes := by
  have whole := upToNul_append_of_no_nul no_nul []
  have nothing : upToNul [] = [] := rfl
  rwa [nothing, List.append_nil] at whole

variable {c' : Cursor} {dt : Nat}

theorem Delimited.end_lt (delimited : Delimited c tok rest dt c') :
    dt + tok.length < c.mem.length := by
  obtain ⟨d, token⟩ := delimited.token
  have length := congrArg List.length token
  simp only [List.length_drop, List.length_append, List.length_cons] at length
  omega

theorem Delimited.length (delimited : Delimited c tok rest dt c') :
    c'.mem.length = c.mem.length := by
  rw [delimited.mem, List.length_set]

theorem Delimited.drop (delimited : Delimited c tok rest dt c') :
    c'.mem.drop dt = tok ++ 0 :: rest := by
  obtain ⟨d, token⟩ := delimited.token
  rw [delimited.mem, List.drop_set, if_neg (by omega), token]
  simp

theorem Delimited.unread (delimited : Delimited c tok rest dt c') : c'.unread = rest := by
  have drop := congrArg (List.drop (tok.length + 1)) delimited.drop
  rw [List.drop_drop] at drop
  rw [Cursor.unread, delimited.dtE, Nat.add_assoc, drop]
  simp

/-- The C string at a delimited token. -/
theorem Delimited.cstr (delimited : Delimited c tok rest dt c') :
    cstr c'.mem dt = upToNul tok := by
  rw [Preload.cstr, delimited.drop, upToNul_nul]

/-- Nothing before the token changes. -/
theorem Delimited.frame (delimited : Delimited c tok rest dt c') :
    c'.mem.take dt = c.mem.take dt := by
  rw [delimited.mem, List.take_set_of_le (by omega)]

theorem Shifted.length (shifted : Shifted c tok dt c') : c'.mem.length = c.mem.length := by
  have bound := List.length_pos_iff.mpr shifted.nonempty
  have old := congrArg List.length shifted.token
  rw [List.length_drop] at old
  rw [shifted.mem]
  simp only [List.length_append, List.length_take, List.length_singleton]
  omega

theorem Shifted.below (shifted : Shifted c tok dt c') : dt + 1 < c.mem.length := by
  have bound := List.length_pos_iff.mpr shifted.nonempty
  rw [← shifted.token, List.length_drop] at bound
  omega

theorem Shifted.unread (shifted : Shifted c tok dt c') : c'.unread = [] := by
  rw [Cursor.unread, shifted.dtE, List.drop_length]

theorem Shifted.frame (shifted : Shifted c tok dt c') : c'.mem.take dt = c.mem.take dt := by
  have below := shifted.below
  rw [shifted.mem, List.append_assoc, List.take_left']
  rw [List.length_take]
  omega

theorem Shifted.drop (shifted : Shifted c tok dt c') :
    c'.mem.drop dt = tok ++ [tok.getLast shifted.nonempty] := by
  have below := shifted.below
  rw [shifted.mem, List.append_assoc, List.drop_left']
  rw [List.length_take]
  omega

/-- The C string at the moved token runs on to the byte that was left at its old end. -/
theorem Shifted.cstr (shifted : Shifted c tok dt c') :
    cstr c'.mem dt = upToNul (tok ++ [tok.getLast shifted.nonempty]) := by
  rw [Preload.cstr, shifted.drop]

/-- A token after a gap is moved over the gap only. -/
theorem Shifted.dtE_le (shifted : Shifted c tok dt c') (gap : c.unread ≠ tok) : c.dtE ≤ dt := by
  have after := shifted.after
  by_contra before
  have start : c.dtE = dt + 1 := by omega
  exact gap (by rw [Cursor.unread, start, shifted.token])

/-- Every token that is returned moves `dt_e` towards the end of the block, past `dt_s`. It
starts at most one byte below the old `dt_e`. -/
theorem nextToken_some (token : nextToken delimiter c = (some dt, c')) :
    c'.mem.length = c.mem.length ∧ c.dtE < c'.dtE ∧ c'.dtS < c'.dtE ∧ c.dtE ≤ dt + 1 := by
  rcases nextToken_cases delimiter c with ⟨_, none, _⟩ | ⟨_, _, tok, rest, some, delimited⟩ |
    ⟨_, _, tok, some, shifted⟩
  · rw [token] at none
    cases none
  · rw [token] at some
    cases some
    have after := delimited.after
    have dtS := delimited.dtS
    have dtE := delimited.dtE
    exact ⟨delimited.length, by omega, by omega, by omega⟩
  · rw [token] at some
    cases some
    have after := shifted.after
    have below := shifted.below
    have dtS := shifted.dtS
    have dtE := shifted.dtE
    rw [shifted.length] at dtE
    exact ⟨shifted.length, by omega, by omega, after⟩

end

end DebianConf.Preload
