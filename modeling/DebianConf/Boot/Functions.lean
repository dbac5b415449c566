import DebianConf.Boot.SysCalls
import DebianConf.Preload.FileList
import DebianConf.SysLinux.BootOptions
import DebianConf.SysLinux.HostName
import DebianConf.Tasks.BootTable

/-!
# The functions of the boot program

The task functions of `root/sys_linux.h` that the table of `main` names, with `launch` and
`execute_arg`, the `readahead` of `root/preload.h`, and `main` as process 1. `execv` and `_exit`
are calls like the others: `fork` returns twice, with 0 in the new process, which goes on with the
rest of the program.
-/

namespace DebianConf.Boot

open DebianConf.Lib DebianConf.SysLinux DebianConf.Preload DebianConf.Tasks

/-- `CHECK_ZERO` (`sys_linux.h:41-42`) -/
def checkZero (fnc : Prog Int) (msg : CStr) : Prog Unit := do
  let r ← fnc
  if r ≠ 0 then perror msg

/-! ## Starting programs -/

/-- `launch` (`sys_linux.h:167-192`). The status is the one that `waitpid` gives. -/
def launch (wait : Bool) (argv : List CStr) (nofork : Bool) : Prog Int := do
  if nofork then
    execv argv
    exit 1
  else
    let pid ← fork
    let status ←
      if pid = -1 then do
        perror (argv.headD [])
        pure (-1)
      else if pid > 0 then
        if wait then waitpid pid else pure 0
      else pure 0
    if pid = 0 then
      -- child
      execv argv
      exit 1
    else pure status

/-- `execute_arg` (`sys_linux.h:147-165`). -/
def executeArg (list : List CStr) (wait fork : Bool) : Prog Int := do
  if 19 < list.length then
    printf (ascii "too many arguments")
    pure (-1)
  else launch wait list (!fork)

/-- A call of `execute_arg` that waits, with its result dropped. -/
def run (list : List String) : Prog Unit := do
  let _ ← executeArg (list.map ascii) true true

/-! ## Mounting -/

/-- `mount_root` (`sys_linux.h:193-196`). -/
def mountRoot : Prog Unit :=
  checkZero (mount (ascii "/dev/sda5") (ascii "/") (ascii "ext4")
    [.noatime, .nodiratime, .remount, .silent] (ascii "")) (ascii "remount /")

/-- Mount all file systems in fstab (`sys_linux.h:198-201`). -/
def mountAll : Prog Unit :=
  checkZero (executeArg [ascii "/bin/mount", ascii "-a"] true true) (ascii "mount all")

/-- `mount_procfs` (`sys_linux.h:202-205`). -/
def mountProcfs : Prog Unit :=
  checkZero (mount (ascii "") (ascii "/proc") (ascii "proc")
    [.noatime, .nodiratime, .nodev, .noexec, .silent, .nosuid] (ascii "")) (ascii "mount /proc")

/-- `mount_sysfs` (`sys_linux.h:206-209`). -/
def mountSysfs : Prog Unit :=
  checkZero (mount (ascii "sys") (ascii "/sys") (ascii "sysfs")
    [.noatime, .nodiratime, .nodev, .noexec, .silent, .nosuid] (ascii "")) (ascii "mount sys")

/-- The part of `mount_devfs` that depends on module devpts (`sys_linux.h:213-215`). -/
def mountPts : Prog Unit := do
  checkZero (mkdir (ascii "/dev/pts") 0o755) (ascii "mkdir /dev/pts")
  checkZero (mount (ascii "pts") (ascii "/dev/pts") (ascii "devpts") [.silent, .nosuid, .noexec]
    (ascii "gid=5,mode=620")) (ascii "mount pts")

/-- `mount_devfs` (`sys_linux.h:210-216`). -/
def mountDevfs : Prog Unit := do
  checkZero (mount (ascii "dev") (ascii "/dev") (ascii "devtmpfs") [.silent] (ascii ""))
    (ascii "mount dev")
  mountPts

/-- `mount_run` (`sys_linux.h:220-223`). -/
def mountRun : Prog Unit :=
  checkZero (mount (ascii "run") (ascii "/run") (ascii "tmpfs")
    [.nodev, .noexec, .silent, .nosuid] (ascii "")) (ascii "mount /run ")

/-- `mount_tmp` (`sys_linux.h:224-227`). -/
def mountTmp : Prog Unit :=
  checkZero (mount (ascii "tmp") (ascii "/tmp") (ascii "tmpfs")
    [.nodev, .noexec, .silent, .nosuid] (ascii "")) (ascii "mount /tmp")

/-- A link that is made unless there is something in its place (`sys_linux.h:236-243`). -/
def symlinkMissing (target linkpath msg : CStr) : Prog Unit := do
  let sb ← stat linkpath
  if sb ≠ 0 then checkZero (symlink target linkpath) msg else pure ()

/-- `setup_fs` (`sys_linux.h:229-253`). -/
def setupFs : Prog Unit := do
  checkZero (mkdir (ascii "/run/lock") 0o1777) (ascii "mkdir /run/lock")
  checkZero (mkdir (ascii "/run/shm") 0o1777) (ascii "mkdir /run/shm")
  checkZero (chmod (ascii "/run/shm") 0o1777) (ascii "chmod /run/shm")
  checkZero (chmod (ascii "/run/lock") 0o1777) (ascii "chmod /run/lock")
  symlinkMissing (ascii "/run") (ascii "/var/run") (ascii "symlink /run /var/run")
  symlinkMissing (ascii "/run/lock") (ascii "/var/lock") (ascii "symlink /run/lock /var/lock")
  checkZero (symlink (ascii "/run/shm") (ascii "/dev/shm")) (ascii "symlink /run/shm /dev/shm")
  -- X11
  let _ ← mkdir (ascii "/tmp/.X11-unix") 0o1777
  let _ ← chmod (ascii "/tmp/.X11-unix") 0o1777
  let _ ← mkdir (ascii "/tmp/.ICE-unix") 0o1777
  let _ ← chmod (ascii "/tmp/.ICE-unix") 0o1777

/-! ## Priorities -/

/-- `setPriorityMax` and `setPriorityMin` (`sys_linux.h:255-278`): the old priority, if it could
be read. -/
def setPriorityTo (extreme : Int → Prog Int) : Prog (Option Int) := do
  match ← getschedparam with
  | some (policy, priority) => do
    let prio ← extreme policy
    let _ ← setschedprio prio
    pure (some priority)
  | none => pure none

def setPriorityMax : Prog (Option Int) := setPriorityTo schedGetPriorityMax

def setPriorityMin : Prog (Option Int) := setPriorityTo schedGetPriorityMin

/-- Roll back to the previous priority (`sys_linux.h:279-282`, `302-305`). -/
def setPriority (old : Option Int) : Prog Unit := do
  match old with
  | some prio => do
    let _ ← setschedprio prio
  | none => pure ()

/-! ## Reading ahead -/

/-- `fd::open` of `preload.h` (`preload.h:96-102`) -/
def openFd (path : CStr) (flag : Nat) : Prog Int := do
  let fd ← open_ path flag
  if fd = -1 then perror path
  pure fd

/-- A file in memory. -/
structure Map where
  addr : Nat
  size : Int
  content : List UInt8
  deriving DecidableEq, Repr

/-- `fd::getFullMap` (`preload.h:112-125`) -/
def getFullMap (fd : Int) : Prog (Option Map) := do
  let size ← fstat fd
  match ← mmap fd size with
  | some (addr, content) => pure (some ⟨addr, size, content⟩)
  | none => do
    perror (ascii "map")
    pure none

/-- The body of the loop of `preload_parser::readahead`, with `fail_count` (`preload.h:204-214`). -/
def readaheadFile (failCount : Nat) (dt : CStr) : Prog Nat := do
  let fd ← open_ dt (oRdonly ||| oNofollow)
  if fd > 0 then
    let size ← fstat fd
    posixFadviseWillneed fd 0 size
    readaheadCall fd 0 size
    close fd
    pure failCount
  else pure (failCount + 1)

/-- The loop over the tokens (`preload.h:201-215`). -/
def readaheadFiles (failCount : Nat) : List CStr → Prog Nat
  | [] => pure failCount
  | dt :: rest => do
    let failCount ← readaheadFile failCount dt
    readaheadFiles failCount rest

/-- The members `file` and `m` of `preload_parser` (`preload.h:156-157`). -/
structure Mapped where
  file : Int
  m : Option Map
  deriving DecidableEq, Repr

/-- `preload_parser::readahead` (`preload.h:188-218`). The tokens are cut in the private mapping,
so that reading on and opening the files do not affect each other. -/
def preloadReadahead (fname : CStr) : Prog (Mapped × Nat) := do
  let fd ← openFd fname oRdonly
  if fd ≠ -1 then
    match ← getFullMap fd with
    | some m => do
      let failCount ← readaheadFiles 0
        ((readaheadLoop (Cursor.start m.content)).1.map Line.path)
      pure (⟨fd, some m⟩, failCount)
    | none => pure (⟨fd, none⟩, 0)
  else pure (⟨fd, none⟩, 0)

/-- The destructors of the members of `preload_parser`, the last member first (`preload.h:74-78`,
`103-107`). -/
def Mapped.destroy (p : Mapped) : Prog Unit := do
  match p.m with
  | some m => munmap m.addr m.size
  | none => pure ()
  if p.file ≠ -1 then close p.file

/-- `readahead` (`sys_linux.h:308-318`). -/
def readahead : Prog Unit := do
  let old ← setPriorityMax
  let (p, _) ← preloadReadahead (ascii "/var/lib/e4rat/startup.log")
  setPriority old
  p.destroy

/-! ## The other tasks -/

/-- The condition and the body of the loop of `deferred_modules` (`sys_linux.h:294-298`). -/
def deferredTurn (got : Option (List UInt8)) : Prog Bool :=
  if readCount got > 0 then do
    usleep 10
    pure true
  else pure false

/-- `deferred_modules` (`sys_linux.h:284-307`). -/
def deferredModules : Prog Unit := do
  let f := ascii "/proc/deferred_initcalls"
  let old ← setPriorityMin
  let fd ← open_ f oRdonly
  if fd > 0 then
    Program.repeatCall (SysCall.read fd 30) deferredTurn
    close fd
  else perror f
  setPriority old
  run ["/bin/udevadm", "trigger"]

/-- Write nothing to a file, which clears it (`sys_linux.h:402-410`). -/
def clearFile (path : CStr) : Prog Unit := do
  match ← fopen path (ascii "w") with
  | none => perror path
  | some pFile => do
    fwrite pFile []
    fclose pFile

/-- `udev` (`sys_linux.h:380-416`). -/
def udev : Prog Unit := do
  let buf ← stat (ascii "/sbin/MAKEDEV")
  let _ ← (if buf = 0 then symlink (ascii "/dev/MAKEDEV") (ascii "/sbin/MAKEDEV")
    else symlink (ascii "/dev/MAKEDEV") (ascii "/bin/true") : Prog Int)
  clearFile (ascii "/sys/kernel/uevent_helper")
  run ["/sbin/udevd", "--daemon"]
  run ["/bin/udevadm", "trigger", "--action=add"]

/-- What `hostname()` reads, `none` when the file cannot be opened (`sys_linux.h:532-543`). -/
def readHostFile : Prog (Option CStr) := do
  match ← fopen (ascii "/etc/hostname") (ascii "r") with
  | some pFile => do
    let got ← fread pFile 100
    fclose pFile
    pure (some got)
  | none => do
    perror (ascii "/etc/hostname ")
    pure none

/-- `hostname()` on the members `s` (`sys_linux.h:528-545`). Its accesses to them are inside of
their bounds, see `hostname_spec`. -/
def hostname (s : Members) : Prog Unit := do
  let file ← readHostFile
  match SysLinux.hostname s file with
  | some (_, host) => sethostname host
  | none => pure ()

/-- `get().hostname()`, on the static object (`sys_linux.h:523-526`). -/
def hostnameS : Prog Unit :=
  match construct Storage.zero with
  | some s => hostname s
  | none => pure ()

/-- `acpi_daemon` (`sys_linux.h:547-550`). -/
def acpiDaemon : Prog Unit := run ["/etc/init.d/acpid", "start"]

/-- `dbus` (`sys_linux.h:372-375`). -/
def dbus : Prog Unit := run ["/etc/init.d/dbus", "start"]

/-- `slim` (`sys_linux.h:368-371`). -/
def slim : Prog Unit := run ["/etc/init.d/slim", "start"]

/-- `procps` (`sys_linux.h:364-367`). -/
def procps : Prog Unit := run ["/sbin/sysctl", "-q", "--system"]

/-- `init_d` (`sys_linux.h:425-435`). -/
def initD : Prog Unit := do
  run ["/etc/init.d/keyboard-setup", "start"]
  run ["/etc/init.d/hwclock", "start"]
  run ["/etc/init.d/kbd", "start"]
  run ["/etc/init.d/console-setup", "start"]
  run ["/lib/udev/udev-finish"]
  run ["/etc/init.d/urandom", "start"]
  run ["/etc/init.d/networking", "start"]

/-- The functions in the table of `main`, by the id of their entry (`preload_main.cpp:120-145`). -/
def taskFnc : BootId → Prog Unit
  | .readahead => readahead
  | .rootFs => mountRoot
  | .sysFs => mountSysfs
  | .devFs => mountDevfs
  | .tmpFs => mountTmp
  | .runFs => mountRun
  | .deferred => deferredModules
  | .hostname => hostnameS
  | .allFs => mountAll
  | .setupFs => setupFs
  | .udev => udev
  | .acpi => acpiDaemon
  | .dbus => dbus
  | .slim => slim
  | .procps => procps
  | .initD => initD
  | _ => pure ()

/-! ## Process 1 -/

/-- `CHECK_NOT`, with the value that is assigned in its argument (`sys_linux.h:43`). -/
def checkNot (fnc : Prog Int) (ecode : Int) (msg : CStr) : Prog Int := do
  let r ← fnc
  if r = ecode then perror msg
  pure r

/-- The words of `/proc/cmdline` (`preload_main.cpp:86-97`). `tstr` is what the buffer of `main`
holds at first. -/
def cmdlineWords (tstr : List UInt8) : Prog (List CStr) := do
  let fd ← checkNot (open_ (ascii "/proc/cmdline") oRdonly) (-1) (ascii "/proc/cmdline")
  if fd > 0 then
    let got ← sys (SysCall.read fd (255 - 1))
    close fd
    match cmdline fd tstr (got.getD []) with
    | some (mem, pushed) => pure (pushed.map (cstr mem))
    | none => pure []
  else pure []

/-- What `main` does with standard output (`preload_main.cpp:80-81`). -/
def reopenStdout : Prog Unit := do
  let stdout ← freopen (ascii "/var/log/kmsg") (ascii "w")
  if !stdout then perror (ascii "/var/log/kmsg")

/-- Programs that `main` starts before the scheduler (`preload_main.cpp:110-116`). -/
def startOptions (options : Options) : Prog Unit := do
  -- single user mode, start init
  let _ ← (if options.single then executeArg [ascii initApp] false false else pure 0 : Prog Int)
  let _ ← (if options.bootchartd then
      executeArg [ascii "/lib/bootchart/bootchart-collector", ascii "50"] false true
    else pure 0 : Prog Int)

/-- `main` of `root/preload_main.cpp` with `initfork`, after it has mounted `/proc`
(`preload_main.cpp:86-150`). -/
def afterProcfs (tstr : List UInt8) : Prog Unit := do
  let words ← cmdlineWords tstr
  startOptions (readOptions {} words)
  setenv (ascii "CINIT") (ascii "1")
  -- start system scripts
  start 5
  -- start init application
  let _ ← executeArg [ascii initApp] false false
  exit 0

/-- `main` of `root/preload_main.cpp` with `initfork` (`preload_main.cpp:78-151`). -/
def mainInit (tstr : List UInt8) : Prog Unit := do
  reopenStdout
  mountProcfs
  afterProcfs tstr

end DebianConf.Boot
