import DebianConf.Boot.MapObjects
import DebianConf.Boot.SortProgram

/-!
# The members of `preload_parser`

The functions of `preload_parser` with the objects that they work on: what `getFullMap` returns is
moved to the member `m`, and the destructors of both objects run. As `mmap` never answers the null
pointer, this cannot be told apart from the programs that keep a mapping or none.
-/

namespace DebianConf.Boot

open DebianConf.Lib DebianConf.SysLinux DebianConf.Preload
open DebianConf.Lib.Program (Same)

/-- The members `file` and `m`, as their destructors find them (`preload.h:156-157`). -/
structure ParserMembers where
  file : Int
  m : MapObject

/-- The destructors of the members, the last member first. -/
def ParserMembers.destroy (members : ParserMembers) : Prog Unit := do
  members.m.unmap
  if members.file ≠ -1 then close members.file

/-- `m = file.getFullMap()`, with the bytes that are mapped (`preload.h:172`, `193`) -/
def assignFullMap (m : MapObject) (fd : Int) : Prog (MapObject × List UInt8) := do
  let (tmp, content) ← fullMapObject fd
  m.unmap
  -- the destructor of what is returned by getFullMap
  tmp.taken.unmap
  pure (tmp, content)

/-- How `loadFile` and `readahead` begin on an object that has just been constructed: `body` gets
the bytes of the file when it can be opened and mapped (`preload.h:169-174`, `190-194`). -/
def openMembers {α : Type} (fname : CStr) (body : List UInt8 → Prog α) (otherwise : α) :
    Prog (ParserMembers × α) := do
  let m := MapObject.empty
  let fd ← openFd fname oRdonly
  if fd ≠ -1 then
    let (m, content) ← assignFullMap m fd
    if m.ptr ≠ 0 then
      let a ← body content
      pure (⟨fd, m⟩, a)
    else pure (⟨fd, m⟩, otherwise)
  else pure (⟨fd, m⟩, otherwise)

/-- `preload_parser::readahead` (`preload.h:188-218`). -/
def readaheadMembers (fname : CStr) : Prog (ParserMembers × Nat) :=
  openMembers fname (fun content =>
    readaheadFiles 0 ((readaheadLoop (Cursor.start content)).1.map Line.path)) 0

/-- `preload_parser::loadFile` (`preload.h:167-184`). -/
def loadFileMembers (fname : CStr) : Prog (ParserMembers × Option Parser) :=
  openMembers fname (fun content => pure (loadFile content)) (loadFile [])

/-- `SysLinux::readahead` (`sys_linux.h:308-318`). -/
def readaheadObjects : Prog Unit := do
  let old ← setPriorityMax
  let (p, _) ← readaheadMembers (ascii "/var/lib/e4rat/startup.log")
  setPriority old
  p.destroy

/-- What `main` does when it sorts (`preload_main.cpp:168-173`). -/
def sortObjects (std : StdSort) (fname : CStr) : Prog Unit := do
  let (members, parser) ← loadFileMembers fname
  match parser with
  | some p => do
    let fileDescs ← updateBlockCalls p.cursor.mem (merge p.fileDescs)
    writeOutCalls std p.cursor.mem fileDescs
    members.destroy
  | none => members.destroy

/-! ## What an object stands for -/

/-- The mapping of an object, if it has one. -/
def MapObject.mapping (m : MapObject) (content : List UInt8) : Option Map :=
  if m.ptr = 0 then none else some ⟨m.ptr, m.size, content⟩

/-- The members without the null pointer. -/
def ParserMembers.mapped (members : ParserMembers) (content : List UInt8) : Mapped :=
  ⟨members.file, members.m.mapping content⟩

theorem destroy_mapped (members : ParserMembers) (content : List UInt8) :
    (members.mapped content).destroy = members.destroy := by
  unfold ParserMembers.mapped MapObject.mapping Mapped.destroy ParserMembers.destroy MapObject.unmap
  by_cases null : members.m.ptr = 0
  · rw [if_pos null, if_neg (not_not.mpr null)]
    rfl
  · rw [if_neg null, if_pos null]

/-- Nothing is mapped at the null pointer. -/
def notNull : (c : SysCall) → c.Answer → Prop
  | .mmap _ _, (m : Option (Nat × List UInt8)) => ∀ p, m = some p → p.1 ≠ 0
  | _, _ => True

/-- The rules of `K`, when nothing is mapped at the null pointer. -/
abbrev withoutNull (K : Contract SysCall SysCall.Answer) : Contract SysCall SysCall.Answer :=
  { K with answers := fun g c r => K.answers g c r ∧ notNull c r }

section
variable {K : Contract SysCall SysCall.Answer}

/-- The object that is returned by `getFullMap` stands for its mapping, and its destructor does
nothing after it has been moved from. -/
theorem same_assignFullMap {α : Type} (fd : Int) {f : MapObject × List UInt8 → Prog α}
    {f' : Option Map → Prog α}
    (rest : ∀ m content, Same (withoutNull K) (f (m, content)) (f' (m.mapping content))) :
    Same (withoutNull K) (assignFullMap .empty fd >>= f) (getFullMap fd >>= f') := by
  refine Same.call (c := SysCall.fstat fd) fun _ size _ => ?_
  refine Same.call (c := SysCall.mmap fd size) fun _ m answers => ?_
  cases m with
  | none => exact Same.call (c := SysCall.perror (ascii "map")) fun _ _ _ => rest ⟨0, size⟩ []
  | some p =>
    have stands : (⟨p.1, size⟩ : MapObject).mapping p.2 = some ⟨p.1, size, p.2⟩ :=
      if_neg (answers.2 p rfl)
    have same := rest ⟨p.1, size⟩ p.2
    rw [stands] at same
    exact same

/-- What is done with the members does not tell the object from its mapping. -/
theorem same_openMembers {α β : Type} (fname : CStr) (body : List UInt8 → Prog α) (otherwise : α)
    {f : ParserMembers × α → Prog β} {f' : Mapped × α → Prog β}
    (rest : ∀ members content a,
      Same (withoutNull K) (f (members, a)) (f' (members.mapped content, a))) :
    Same (withoutNull K) (openMembers fname body otherwise >>= f)
      ((do
        let fd ← openFd fname oRdonly
        if fd ≠ -1 then
          match ← getFullMap fd with
          | some m => do
            let a ← body m.content
            pure (⟨fd, some m⟩, a)
          | none => pure (⟨fd, none⟩, otherwise)
        else pure (⟨fd, none⟩, otherwise)) >>= f') := by
  unfold openMembers
  rw [Program.seq_assoc, Program.seq_assoc]
  refine Same.bind fun fd => ?_
  by_cases opened : fd ≠ -1
  · rw [if_pos opened, if_pos opened, Program.seq_assoc, Program.seq_assoc]
    refine same_assignFullMap fd fun m content => ?_
    by_cases null : m.ptr = 0
    · have same := rest ⟨fd, m⟩ content otherwise
      rw [ParserMembers.mapped, MapObject.mapping, if_pos null] at same
      rw [MapObject.mapping, if_pos null]
      show Same (withoutNull K) ((if m.ptr ≠ 0 then _ else _) >>= f) _
      rw [if_neg (not_not.mpr null)]
      exact same
    · have same := rest ⟨fd, m⟩ content
      rw [ParserMembers.mapped, MapObject.mapping, if_neg null] at same
      rw [MapObject.mapping, if_neg null]
      show Same (withoutNull K) ((if m.ptr ≠ 0 then _ else _) >>= f) _
      rw [if_pos null]
      show Same (withoutNull K) ((body content >>= _) >>= f) ((body content >>= _) >>= f')
      rw [Program.seq_assoc, Program.seq_assoc]
      exact Same.bind same
  · rw [if_neg opened, if_neg opened]
    exact rest ⟨fd, .empty⟩ [] otherwise

/-- `readahead` and the `sort` command with the objects of `preload_parser` cannot be told apart
from the programs with what the objects stand for, by any rules for their calls, as long as
nothing is mapped at the null pointer. -/
theorem objects_same (K : Contract SysCall SysCall.Answer) (std : StdSort) (fname : CStr) :
    Same (withoutNull K) readaheadObjects readahead ∧
      Same (withoutNull K) (sortObjects std fname) (sortCalls std fname) := by
  constructor
  · refine Same.bind fun old => ?_
    refine same_openMembers _ _ _ fun members content n => Same.bind fun _ => ?_
    rw [← destroy_mapped members content]
    exact Same.refl _ _
  · refine same_openMembers _ _ _ fun members content parser => ?_
    cases parser with
    | none =>
      show Same (withoutNull K) members.destroy (members.mapped content).destroy
      rw [← destroy_mapped members content]
      exact Same.refl _ _
    | some p =>
      refine Same.bind fun fileDescs => Same.bind fun _ => ?_
      rw [← destroy_mapped members content]
      exact Same.refl _ _

end

/-- What is printed with the objects, and that their destructors leave nothing open or mapped. -/
theorem disk_sortObjects (d : Disk) (std : StdSort) (fname : CStr) (g : Desk) :
    (sortObjects std fname).wp (withoutNull (diskRules d)) (fun _ g' => ∃ text,
      sortFile std (fun _ _ => d.fibmap) ((d.file fname).getD []) = some text ∧
        g' = g.print text) g := by
  apply ((objects_same (diskRules d) std fname).2 _ g).mpr
  exact Program.wp_fewer (fun _ _ _ => And.left) (disk_sortCalls std fname)

end DebianConf.Boot
