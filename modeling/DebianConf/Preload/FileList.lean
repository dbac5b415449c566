import DebianConf.Preload.Parser

/-!
# The readers and the writer of the preload list

`readahead` and `loadFile` read the list with the same three calls of `nextToken` for each
line. `Merge`, `UpdateBlock` and `WriteOut` make up the `sort` command.
-/

namespace DebianConf.Preload

open DebianConf.Lib

/-! ## `readahead` -/

/-- What one pass of a reader takes from the block: the tokens for dev and inode and the path
as C strings when `nextToken` returns them, and the pointer to the path. -/
structure Line where
  dev : List UInt8
  inode : List UInt8
  dt : Nat
  path : List UInt8
  deriving DecidableEq, Repr

/-- The condition of the loop in `readahead` (`preload.h:201-202`). -/
def readLine (c : Cursor) : Option Line × Cursor :=
  match nextToken 32 c with
  | (none, c) => (none, c)
  | (some dev, c₁) =>
    match nextToken 32 c₁ with
    | (none, c) => (none, c)
    | (some inode, c₂) =>
      match nextToken 10 c₂ with
      | (none, c) => (none, c)
      | (some dt, c₃) => (some ⟨cstr c₁.mem dev, cstr c₂.mem inode, dt, cstr c₃.mem dt⟩, c₃)

/-- A line is read by three calls of `nextToken` that succeed. -/
theorem readLine_tokens {c c' : Cursor} {line : Line} (read : readLine c = (some line, c')) :
    ∃ dev c₁ inode c₂, nextToken 32 c = (some dev, c₁) ∧ nextToken 32 c₁ = (some inode, c₂) ∧
      nextToken 10 c₂ = (some line.dt, c') ∧ line.dev = cstr c₁.mem dev ∧
      line.inode = cstr c₂.mem inode ∧ line.path = cstr c'.mem line.dt := by
  unfold readLine at read
  split at read
  · cases read
  · next first =>
    split at read
    · cases read
    · next second =>
      split at read
      · cases read
      · next third =>
        cases read
        exact ⟨_, _, _, _, first, second, third, rfl, rfl, rfl⟩

/-- A line that is read moves `dt_e` towards the end of the block, past `dt_s`, and its path
starts behind the old `dt_e`. -/
theorem readLine_some {c c' : Cursor} {line : Line} (read : readLine c = (some line, c')) :
    c'.mem.length = c.mem.length ∧ c.dtE < c'.dtE ∧ c'.dtS < c'.dtE ∧ c.dtE ≤ line.dt := by
  obtain ⟨_, _, _, _, first, second, third, -⟩ := readLine_tokens read
  have dev := nextToken_some first
  have inode := nextToken_some second
  have path := nextToken_some third
  exact ⟨by omega, by omega, by omega,
    Nat.le_of_lt_succ ((dev.2.1.trans inode.2.1).trans_le path.2.2.2)⟩

/-- The loop in `readahead`: the lines it reads, and where it stops (`preload.h:201-215`). -/
def readaheadLoop (c : Cursor) : List Line × Cursor :=
  match _read : readLine c with
  | (none, c') => ([], c')
  | (some line, c') =>
    let (lines, last) := readaheadLoop c'
    (line :: lines, last)
termination_by c.mem.length - c.dtE
decreasing_by
  have moved := readLine_some _read
  have inside := c'.dtE_le
  omega

/-- The lines `readahead` reads from a file (`preload.h:188-218`). An empty file is not mapped. -/
def readaheadLines (content : List UInt8) : List Line :=
  if content = [] then [] else (readaheadLoop (Cursor.start content)).1

/-- The paths `readahead` passes to `open`, in order (`preload.h:204`). -/
def readahead (content : List UInt8) : List (List UInt8) :=
  (readaheadLines content).map Line.path

/-! ## `loadFile` -/

/-- `file_desc_t` (`preload.h:135-153`). `taken` is a ghost: the C string `path` pointed to when
`nextToken` returned it. -/
structure FileDesc where
  dev : BitVec 32
  inode : BitVec 64
  block : BitVec 32
  path : Option Nat
  taken : List UInt8
  deriving DecidableEq, Repr

/-- A value-initialised `file_desc_t` (`preload.h:230`). -/
def FileDesc.zero : FileDesc := ⟨0, 0, 0, none, []⟩

/-- The body of the inner loop of `processBlock`: the record it fills, and `dt`
(`preload.h:236-252`). -/
def storeLine (fd : FileDesc) (c : Cursor) : FileDesc × Option Nat × Cursor :=
  match nextToken 32 c with
  | (none, c) => (fd, none, c)
  | (some dt, c) =>
    let fd := { fd with dev := (strtoul (cstr c.mem dt)).setWidth 32 }
    match nextToken 32 c with
    | (none, c) => (fd, none, c)
    | (some dt, c) =>
      let fd := { fd with inode := strtoul (cstr c.mem dt) }
      match nextToken 10 c with
      | (none, c) => (fd, none, c)
      | (some dt, c) => ({ fd with path := some dt, taken := cstr c.mem dt }, some dt, c)

/-- The inner loop of `processBlock` over the records of a vector: the vector after it,
`file_desc_idx`, `dt` and the cursor (`preload.h:233-253`). -/
def fillVector : List FileDesc → Option Nat → Cursor → List FileDesc × Nat × Option Nat × Cursor
  | [], dt, c => ([], 0, dt, c)
  | fd :: fds, _, c =>
    match storeLine fd c with
    | (fd, none, c) => (fd :: fds, 0, none, c)
    | (fd, some dt, c) =>
      let (vec, idx, dt, c) := fillVector fds (some dt) c
      (fd :: vec, idx + 1, dt, c)

/-- The members of `preload_parser` that `processBlock` works on (`preload.h:158-165`). -/
structure Parser where
  cursor : Cursor
  fileDescs : List (List FileDesc)
  fileDescCount : Nat

/-- The outer loop of `processBlock`; `none` is the division by a `line_size` of 0
(`preload.h:227-262`). `dt` keeps its value over a vector without room. -/
def processLoop (lineSize : Nat) (dt : Option Nat) (p : Parser) : Option Parser :=
  if lineSize = 0 then none
  else
    let fileDescMax := (p.cursor.mem.length - p.cursor.dtS) / lineSize
    let (vec, idx, dt, cursor) := fillVector (List.replicate fileDescMax .zero) dt p.cursor
    let count := p.fileDescCount + idx
    match dt with
    | some dt => processLoop (lineSize / 2) (some dt) ⟨cursor, p.fileDescs ++ [vec], count⟩
    | none => some ⟨cursor, p.fileDescs ++ [vec.take idx], count⟩
termination_by lineSize
decreasing_by omega

/-- `processBlock` (`preload.h:219-263`). -/
def processBlock (p : Parser) : Option Parser := processLoop 50 none p

/-- `loadFile` on a file with this content (`preload.h:167-184`). An empty file is not mapped. -/
def loadFile (content : List UInt8) : Option Parser :=
  let p : Parser := ⟨Cursor.start content, [], 0⟩
  if content = [] then some p else processBlock p

/-! ## The `sort` command -/

/-- The C string `path` points to; a null pointer gives the empty string. -/
def FileDesc.text (mem : List UInt8) (fd : FileDesc) : List UInt8 :=
  match fd.path with
  | some p => cstr mem p
  | none => []

/-- `operator<` (`preload.h:141-152`). -/
def FileDesc.lt (fd other : FileDesc) : Bool := fd.block.slt other.block

/-- `Merge` (`preload.h:356-369`): all vectors are inserted at the end of the first. -/
def merge : List (List FileDesc) → List (List FileDesc)
  | [] => []
  | vec :: rest => [rest.foldl (· ++ ·) vec]

/-- `UpdateBlock` (`preload.h:324-342`). `fibmap i j path` is the block `ioctl(FIBMAP)` leaves for
record `j` of vector `i`, or `none` when its path cannot be opened. -/
def updateBlock (fibmap : Nat → Nat → List UInt8 → Option (BitVec 32)) (mem : List UInt8)
    (fileDescs : List (List FileDesc)) : List (List FileDesc) :=
  fileDescs.mapIdx fun i vec => vec.mapIdx fun j fd =>
    { fd with block := (fibmap i j (fd.text mem)).getD 0 }

/-- `std::sort` with `operator<` (`preload.h:348`): a permutation that leaves no record before a
smaller one. -/
structure StdSort where
  sort : List FileDesc → List FileDesc
  perm : ∀ vec, (sort vec).Perm vec
  sorted : ∀ vec, (sort vec).Pairwise fun fd later => later.lt fd = false

/-- `printf("%d %lld %s\n", …)` (`preload.h:351`). -/
def printLine (mem : List UInt8) (fd : FileDesc) : List UInt8 :=
  printSigned fd.dev.toInt ++ 32 :: (printSigned fd.inode.toInt ++ 32 :: (fd.text mem ++ [10]))

/-- `WriteOut` (`preload.h:344-354`): the sorted vectors, and what is printed. -/
def writeOut (std : StdSort) (mem : List UInt8) (fileDescs : List (List FileDesc)) :
    List (List FileDesc) × List UInt8 :=
  let sorted := fileDescs.map std.sort
  (sorted, sorted.flatMap fun vec => vec.flatMap (printLine mem))

end DebianConf.Preload
