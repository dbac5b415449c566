import DebianConf.Boot.SysCalls

/-!
# What the calls depend on

Which calls open, close or change nothing that a process has, and which file systems a call
touches: those its paths are on, when they are among those that the program mounts, and the root
when the call changes it, which is mounted read-only at first. Three calls do not wait for what
they touch.
-/

namespace DebianConf.Boot

open DebianConf.SysLinux

/-- A call that opens, closes and replaces nothing. -/
def SysCall.isPlain : SysCall → Bool
  | .mount _ _ _ _ _ => true
  | .mkdir _ _ => true
  | .chmod _ _ => true
  | .symlink _ _ => true
  | .stat _ => true
  | .getschedparam => true
  | .schedGetPriorityMin _ => true
  | .schedGetPriorityMax _ => true
  | .usleep _ => true
  | .freopen _ _ => true
  | .sethostname _ => true
  | .setenv _ _ => true
  | .perror _ => true
  | .printf _ => true
  | _ => false

/-- The file systems that the boot program mounts, or mounts again. -/
inductive FileSystem where
  | root
  | proc
  | sys
  | dev
  | run
  | tmp
  deriving DecidableEq, Repr

def FileSystem.target : FileSystem → CStr
  | .root => ascii "/"
  | .proc => ascii "/proc"
  | .sys => ascii "/sys"
  | .dev => ascii "/dev"
  | .run => ascii "/run"
  | .tmp => ascii "/tmp"

/-- The file system that a path is on. -/
def fileSystemOf (path : CStr) : FileSystem :=
  ([.proc, .sys, .dev, .run, .tmp].find? fun fs => (fs.target ++ ascii "/").isPrefixOf path).getD
    .root

/-- Reading from the root does not wait for it to be mounted again. -/
def reading (path : CStr) : List FileSystem :=
  if fileSystemOf path = .root then [] else [fileSystemOf path]

def opening (path mode : CStr) : List FileSystem :=
  if mode = ascii "r" then reading path else [fileSystemOf path]

/-- The file systems that the call touches. The functions of `start` count on `/proc`. The programs
that are executed are on the root. -/
def SysCall.touches : SysCall → List FileSystem
  | .mount source target _ _ _ => reading source ++ reading target
  | .mkdir path _ => [fileSystemOf path]
  | .chmod path _ => [fileSystemOf path]
  | .symlink _ linkpath => [fileSystemOf linkpath]
  | .stat path => reading path
  | .open_ path _ => reading path
  | .fopen path mode => opening path mode
  | .freopen path mode => opening path mode
  | .start _ => [.proc]
  | _ => []

/-- The call may come before the file system is mounted: `main` reopens its output on the root
before that is mounted again, the files of the preload list, which are opened with `O_NOFOLLOW`,
may be anywhere, and the mount of the root names a device under `/dev`. -/
def SysCall.isEarly : SysCall → FileSystem → Bool
  | .freopen path mode, fs => path = ascii "/var/log/kmsg" ∧ mode = ascii "w" ∧ fs = .root
  | .open_ _ flags, _ => flags = oRdonly ||| oNofollow
  | .mount source target _ _ _, fs =>
    source = ascii "/dev/sda5" ∧ target = ascii "/" ∧ fs = .dev
  | _, _ => false

/-- The file systems that have to be mounted before the call. -/
def SysCall.needs (c : SysCall) : List FileSystem := c.touches.filter fun fs => !c.isEarly fs

theorem mem_needs {c : SysCall} {fs : FileSystem} :
    fs ∈ c.needs ↔ fs ∈ c.touches ∧ c.isEarly fs = false := by
  rw [SysCall.needs, List.mem_filter, Bool.not_eq_true']

theorem needs_subset {c : SysCall} {F : List FileSystem} (within : c.touches ⊆ F) : c.needs ⊆ F :=
  List.Subset.trans List.filter_sublist.subset within

/-- The files of the preload list are opened wherever they are. -/
theorem needs_listed (path : CStr) : (SysCall.open_ path (oRdonly ||| oNofollow)).needs = [] :=
  List.filter_eq_nil_iff.mpr fun fs _ => by simp [SysCall.isEarly]

theorem needs_open {path : CStr} (root : reading path = []) (flags : Nat) :
    (SysCall.open_ path flags).needs = [] := by
  rw [SysCall.needs, SysCall.touches, root, List.filter_nil]

/-- The file systems that the call mounts. -/
def SysCall.mounts : SysCall → List FileSystem
  | .mount _ target _ _ _ => [.root, .proc, .sys, .dev, .run, .tmp].filter (·.target = target)
  | _ => []

end DebianConf.Boot
