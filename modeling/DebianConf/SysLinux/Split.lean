import DebianConf.Lib.Memory
import DebianConf.Preload.Parser

/-!
# Splitting a command line

`SysLinux::split` and `SysLinux::execute` of `root/sys_linux.h`. `split` works in place on a buffer
that ends in a NUL, and every access to the buffer is checked: `none` is an access outside of it.
-/

namespace DebianConf.SysLinux

open DebianConf.Lib

/-- The end of an argument that starts at `start`: scan for the delimiter or a NUL, overwrite the
delimiter and step over it (`sys_linux.h:109-115`, `120-126`). -/
def endArgument (delimiter : UInt8) (mem : List UInt8) (start : Nat) :
    Option (List UInt8 × Nat) := do
  let cptr ← advance (fun b => b != delimiter && b != 0) none mem start
  let b ← mem[cptr]?
  if b = delimiter then
    let mem ← store mem cptr 0
    return (mem, cptr + 1)
  return (mem, cptr)

/-- The body of the do-while loop: the buffer and `cptr` after it, and the pointer it pushes
(`sys_linux.h:101-128`). -/
def splitBody (mem : List UInt8) (cptr : Nat) : Option (List UInt8 × Nat × List Nat) := do
  -- find letter
  let cptr ← advance (fun b => b == 32 && b != 0) none mem cptr
  let b ← mem[cptr]?
  if b = 39 then
    -- argument with delimiters
    let (mem, ended) ← endArgument 39 mem (cptr + 1)
    return (mem, ended, [cptr + 1])
  else if b ≠ 0 then
    -- next space
    let (mem, ended) ← endArgument 32 mem cptr
    return (mem, ended, [cptr])
  else return (mem, cptr, [])

theorem endArgument_moves {delimiter : UInt8} {mem mem' : List UInt8} {start ended : Nat}
    (done : endArgument delimiter mem start = some (mem', ended)) :
    mem'.length = mem.length ∧ start ≤ ended ∧
      ∀ b, mem[start]? = some b → b ≠ delimiter → b ≠ 0 → start < ended := by
  simp only [endArgument, Option.bind_eq_bind, Option.bind_eq_some_iff] at done
  obtain ⟨cptr, scan, b, here, rest⟩ := done
  obtain ⟨forward, stop⟩ := advance_some scan
  have strict : ∀ b, mem[start]? = some b → b ≠ delimiter → b ≠ 0 → start < cptr := by
    intro b first other nonzero
    rcases stop with limit | ⟨x, there, unmet⟩
    · cases limit
    · refine Nat.lt_of_le_of_ne forward fun same => ?_
      rw [← same, first] at there
      cases there
      simp [other, nonzero] at unmet
  split at rest
  · obtain ⟨stored, written, same⟩ := Option.bind_eq_some_iff.mp rest
    obtain ⟨-, rfl⟩ := store_some written
    cases same
    exact ⟨List.length_set, by omega, fun b first other nonzero =>
      Nat.lt_succ_of_lt (strict b first other nonzero)⟩
  · cases rest
    exact ⟨rfl, forward, strict⟩

/-- The body moves `cptr` on, unless it is at the end of the string. -/
theorem splitBody_moves {mem mem' : List UInt8} {cptr ended : Nat} {pushed : List Nat}
    (done : splitBody mem cptr = some (mem', ended, pushed)) :
    mem'.length = mem.length ∧ (cptr < ended ∨ mem'[ended]? = some 0) := by
  simp only [splitBody, Option.bind_eq_bind, Option.bind_eq_some_iff] at done
  obtain ⟨first, scan, b, here, rest⟩ := done
  obtain ⟨forward, stop⟩ := advance_some scan
  split at rest
  · obtain ⟨result, argument, same⟩ := Option.bind_eq_some_iff.mp rest
    cases same
    have moves := endArgument_moves argument
    exact ⟨moves.1, Or.inl (by omega)⟩
  · split at rest
    · next nonzero =>
      obtain ⟨result, argument, same⟩ := Option.bind_eq_some_iff.mp rest
      cases same
      have moves := endArgument_moves argument
      have letter : b ≠ 32 := by
        rintro rfl
        rcases stop with limit | ⟨x, there, unmet⟩
        · cases limit
        · rw [here] at there
          cases there
          simp at unmet
      have further := moves.2.2 b here letter nonzero
      exact ⟨moves.1, Or.inl (by omega)⟩
    · next zero =>
      cases rest
      rw [not_not] at zero
      exact ⟨rfl, Or.inr (zero ▸ here)⟩

/-- The do-while loop of `split` (`sys_linux.h:99-129`). -/
def splitLoop (mem : List UInt8) (cptr : Nat) (v : List Nat) : Option (List UInt8 × List Nat) :=
  match _body : splitBody mem cptr with
  | none => none
  | some (mem', ended, pushed) =>
    match _test : mem'[ended]? with
    | none => none
    | some b =>
      if _again : b ≠ 0 then splitLoop mem' ended (v ++ pushed) else some (mem', v ++ pushed)
termination_by mem.length - cptr
decreasing_by
  obtain ⟨same, moved | last⟩ := splitBody_moves _body
  · obtain ⟨inside, -⟩ := List.getElem?_eq_some_iff.mp _test
    omega
  · rw [last] at _test
    cases _test
    exact absurd rfl _again

/-- `split(list, v)` with an empty `v`: the buffer after it and the pointers in `v`
(`sys_linux.h:97-130`). -/
def split (list : List UInt8) : Option (List UInt8 × List Nat) := splitLoop list 0 []

/-- A call of `launch`, with the memory its arguments point to (`sys_linux.h:167`). -/
structure Launch where
  wait : Bool
  mem : List UInt8
  argv : List (Option Nat)
  nofork : Bool
  deriving DecidableEq, Repr

/-- `execute(cmd, wait, fork)` (`sys_linux.h:136-143`) up to its call of `launch`. -/
def execute (cmd : List UInt8) (wait fork : Bool) : Option Launch := do
  let (mem, arg) ← split cmd
  return ⟨wait, mem, arg.map some ++ [none], !fork⟩

end DebianConf.SysLinux
