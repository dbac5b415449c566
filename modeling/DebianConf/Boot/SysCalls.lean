import DebianConf.Lib.Program
import DebianConf.SysLinux.CString

/-!
# System calls

The calls that `main` and the functions of `root/sys_linux.h` and `root/preload.h` make to the
system, with what they return, and the programs that consist of one call.
-/

namespace DebianConf.Boot

open DebianConf.Lib DebianConf.SysLinux

/-- A C string. -/
abbrev CStr := List UInt8

/-- The flags of `mount`. -/
inductive MountFlag where
  | noatime
  | nodiratime
  | remount
  | silent
  | nodev
  | noexec
  | nosuid
  deriving DecidableEq, Repr

def oRdonly : Nat := 0
def oNofollow : Nat := 0o400000

inductive SysCall where
  | mount (source target fstype : CStr) (flags : List MountFlag) (data : CStr)
  | mkdir (path : CStr) (mode : Nat)
  | chmod (path : CStr) (mode : Nat)
  | symlink (target linkpath : CStr)
  | stat (path : CStr)
  | open_ (path : CStr) (flags : Nat)
  | read (fd : Int) (count : Nat)
  | close (fd : Int)
  | fstat (fd : Int)
  /-- `ioctl(fd, FIBMAP, &block)` -/
  | fibmap (fd : Int)
  | mmap (fd length : Int)
  | munmap (addr : Nat) (length : Int)
  | posixFadviseWillneed (fd offset len : Int)
  | readahead (fd offset count : Int)
  | fopen (path mode : CStr)
  | freopen (path mode : CStr)
  | fread (stream count : Nat)
  | fwrite (stream : Nat) (bytes : CStr)
  | fclose (stream : Nat)
  | getschedparam
  | schedGetPriorityMin (policy : Int)
  | schedGetPriorityMax (policy : Int)
  | setschedprio (prio : Int)
  | usleep (usec : Nat)
  | fork
  | waitpid (pid : Int)
  | execv (argv : List CStr)
  | exit (status : Int)
  | sethostname (name : CStr)
  | setenv (name value : CStr)
  /-- `Tasks::start`, which returns when all of its threads are joined -/
  | start (threadMax : Nat)
  | perror (s : CStr)
  | printf (text : CStr)
  deriving DecidableEq, Repr

/-- What a call returns. A result that no caller looks at is left out. -/
def SysCall.Answer : SysCall → Type
  /- the bytes that are read, or `none` for -1 -/
  | .read _ _ => Option (List UInt8)
  /- `st_size` -/
  | .fstat _ => Int
  /- the block, or `none` for -1 -/
  | .fibmap _ => Option (BitVec 32)
  /- the address, with the bytes of the file found there, or `none` for `MAP_FAILED` -/
  | .mmap _ _ => Option (Nat × List UInt8)
  | .fopen _ _ => Option Nat
  /- whether it succeeds -/
  | .freopen _ _ => Bool
  | .fread _ _ => List UInt8
  /- `policy` and `sched_priority`, or `none` for an error -/
  | .getschedparam => Option (Int × Int)
  | .mount _ _ _ _ _ => Int
  | .mkdir _ _ => Int
  | .chmod _ _ => Int
  | .symlink _ _ => Int
  | .stat _ => Int
  | .open_ _ _ => Int
  | .schedGetPriorityMin _ => Int
  | .schedGetPriorityMax _ => Int
  | .setschedprio _ => Int
  | .fork => Int
  /- the status of the process that has ended -/
  | .waitpid _ => Int
  | .exit _ => Empty
  | _ => Unit

/-- A call that ends the process or replaces its program. -/
def SysCall.replaces : SysCall → Bool
  | .execv _ => true
  | .exit _ => true
  | _ => false

/-- A call that concerns only the caller: it starts, replaces and ends no process, and does not
wait for the threads of `start`. -/
def SysCall.isOwn : SysCall → Bool
  | .fork => false
  | .execv _ => false
  | .exit _ => false
  | .start _ => false
  | _ => true

/-- A call of the caller alone that mounts nothing. -/
def SysCall.isIdle : SysCall → Bool
  | .mount _ _ _ _ _ => false
  | c => c.isOwn

theorem own_of_isIdle {c : SysCall} (idle : c.isIdle = true) : c.isOwn = true := by
  cases c <;> first | rfl | cases idle

/-- What `fork` returns in the new process. -/
def inChild : SysCall.Answer .fork := (0 : Int)

/-- The answer is that `fork` has made a process. -/
def SysCall.spawns : (c : SysCall) → c.Answer → Bool
  | .fork, (pid : Int) => 0 < pid
  | _, _ => false

theorem fork_of_spawns {c : SysCall} {r : c.Answer} (spawns : c.spawns r = true) : c = .fork := by
  cases c <;> first | rfl | cases spawns

/-- The functions of the program, with the calls they make. -/
abbrev Prog (α : Type) : Type 1 := Program SysCall SysCall.Answer α

/-- The program that consists of the call `c`. -/
abbrev sys (c : SysCall) : Prog c.Answer := Program.call c

/-- The return value of `read`. -/
def readCount : Option (List UInt8) → Int
  | none => -1
  | some bytes => bytes.length

abbrev mount (source target fstype : CStr) (flags : List MountFlag) (data : CStr) : Prog Int :=
  sys (.mount source target fstype flags data)

abbrev mkdir (path : CStr) (mode : Nat) : Prog Int := sys (.mkdir path mode)

abbrev chmod (path : CStr) (mode : Nat) : Prog Int := sys (.chmod path mode)

abbrev symlink (target linkpath : CStr) : Prog Int := sys (.symlink target linkpath)

abbrev stat (path : CStr) : Prog Int := sys (.stat path)

abbrev open_ (path : CStr) (flags : Nat) : Prog Int := sys (.open_ path flags)

abbrev close (fd : Int) : Prog Unit := sys (.close fd)

abbrev fstat (fd : Int) : Prog Int := sys (.fstat fd)

abbrev fibmap (fd : Int) : Prog (Option (BitVec 32)) := sys (.fibmap fd)

abbrev mmap (fd length : Int) : Prog (Option (Nat × List UInt8)) := sys (.mmap fd length)

abbrev munmap (addr : Nat) (length : Int) : Prog Unit := sys (.munmap addr length)

abbrev posixFadviseWillneed (fd offset len : Int) : Prog Unit :=
  sys (.posixFadviseWillneed fd offset len)

abbrev readaheadCall (fd offset count : Int) : Prog Unit :=
  sys (.readahead fd offset count)

abbrev fopen (path mode : CStr) : Prog (Option Nat) := sys (.fopen path mode)

abbrev freopen (path mode : CStr) : Prog Bool := sys (.freopen path mode)

abbrev fread (stream count : Nat) : Prog (List UInt8) := sys (.fread stream count)

abbrev fwrite (stream : Nat) (bytes : CStr) : Prog Unit := sys (.fwrite stream bytes)

abbrev fclose (stream : Nat) : Prog Unit := sys (.fclose stream)

abbrev getschedparam : Prog (Option (Int × Int)) := sys .getschedparam

abbrev schedGetPriorityMin (policy : Int) : Prog Int :=
  sys (.schedGetPriorityMin policy)

abbrev schedGetPriorityMax (policy : Int) : Prog Int :=
  sys (.schedGetPriorityMax policy)

abbrev setschedprio (prio : Int) : Prog Int := sys (.setschedprio prio)

abbrev usleep (usec : Nat) : Prog Unit := sys (.usleep usec)

abbrev fork : Prog Int := sys .fork

abbrev waitpid (pid : Int) : Prog Int := sys (.waitpid pid)

/-- It returns only when it fails. -/
abbrev execv (argv : List CStr) : Prog Unit := sys (.execv argv)

abbrev exit {α : Type} (status : Int) : Prog α := .ask (SysCall.exit status) Empty.elim

abbrev sethostname (name : CStr) : Prog Unit := sys (.sethostname name)

abbrev setenv (name value : CStr) : Prog Unit := sys (.setenv name value)

abbrev start (threadMax : Nat) : Prog Unit := sys (.start threadMax)

abbrev perror (s : CStr) : Prog Unit := sys (.perror s)

abbrev printf (text : CStr) : Prog Unit := sys (.printf text)

end DebianConf.Boot
