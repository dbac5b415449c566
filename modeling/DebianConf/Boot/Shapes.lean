import DebianConf.Boot.FileSystems
import DebianConf.Boot.Functions

/-!
# What the functions are made of

A property of programs that sequences keep holds of a function when it holds of the calls that
the function makes. Each function is taken apart once, for every such property.
-/

namespace DebianConf.Boot

open DebianConf.Lib DebianConf.SysLinux DebianConf.Preload DebianConf.Tasks
open DebianConf.Lib.Program (Compositional)

/-- The file systems that a function has to find. -/
def requires : BootId → List FileSystem
  | .devFs => [.dev]
  | .deferred => [.proc]
  | .setupFs => [.root, .run, .dev, .tmp]
  | .udev => [.root, .sys]
  | _ => []

section
variable {P : ∀ {α : Type}, Prog α → Prop} (comp : Compositional P)

theorem own_of_isPlain {c : SysCall} (plain : c.isPlain = true) : c.isOwn = true := by
  cases c <;> first | rfl | cases plain

include comp

theorem checkZero_shape {p : Prog Int} {msg : CStr} (value : P p) (perrors : P (perror msg)) :
    P (checkZero p msg) :=
  comp.bind value fun _ => Compositional.ite perrors (comp.pure ())

/-! ## Starting programs -/

/-- `launch`, for a property of all calls. -/
theorem launch_shape (calls : ∀ c : SysCall, c.needs = [] → P (sys c))
    (exits : P (exit 1 : Prog Int)) (wait : Bool) (argv : List CStr) (nofork : Bool) :
    P (launch wait argv nofork) := by
  have child : P (execv argv >>= fun _ => (exit 1 : Prog Int)) :=
    comp.bind (calls _ rfl) fun _ => exits
  unfold launch
  refine Compositional.ite child (comp.bind (calls _ rfl) fun pid => ?_)
  extract_lets next
  have goes_on : ∀ status, P (next status) :=
    fun status => Compositional.ite child (comp.pure status)
  refine Compositional.ite (comp.bind (calls _ rfl) fun _ => goes_on (-1)) ?_
  refine Compositional.ite (Compositional.ite ?_ (goes_on 0)) (goes_on 0)
  exact comp.bind (calls _ rfl) goes_on

/-! ## Functions without loops and descriptors -/

section
variable {F : List FileSystem}
  (plain : ∀ c : SysCall, c.isPlain = true → c.isIdle = true → c.needs ⊆ F → P (sys c))

include plain

theorem checked_shape {p : Prog Int} (value : P p) (msg : CStr) : P (checkZero p msg) :=
  checkZero_shape comp value (plain (.perror msg) rfl rfl (List.nil_subset F))

theorem symlinkMissing_shape {target linkpath : CStr} (reads : reading linkpath ⊆ F)
    (writes : [fileSystemOf linkpath] ⊆ F) (msg : CStr) :
    P (symlinkMissing target linkpath msg) := by
  refine comp.bind (plain (.stat linkpath) rfl rfl (needs_subset reads)) fun sb => ?_
  refine Compositional.ite (checked_shape comp plain ?_ msg) (comp.pure ())
  exact plain (.symlink target linkpath) rfl rfl (needs_subset writes)

end

section
variable (plain : ∀ c : SysCall, c.isPlain = true → c.needs ⊆ [.dev] → P (sys c))

include plain

/-- What comes after the mount of `/dev`. -/
theorem mountPts_shape : P mountPts := by
  have checked := fun {p : Prog Int} (value : P p) (msg : CStr) =>
    checked_shape comp (fun c given _ => plain c given) value msg
  refine comp.bind (checked (plain (.mkdir ..) rfl (by decide)) _) fun _ => ?_
  exact checked (plain (.mount ..) rfl (by decide)) _

theorem mountDevfs_shape : P mountDevfs :=
  comp.bind (checked_shape comp (fun c given _ => plain c given)
    (plain (.mount ..) rfl (by decide)) _) fun _ => mountPts_shape comp plain

end

theorem setupFs_shape (plain : ∀ c : SysCall, c.isPlain = true → c.isIdle = true →
    c.needs ⊆ [.root, .run, .dev, .tmp] → P (sys c)) : P setupFs := by
  refine comp.bind (checked_shape comp plain (plain (.mkdir ..) rfl rfl (by decide)) _) fun _ => ?_
  refine comp.bind (checked_shape comp plain (plain (.mkdir ..) rfl rfl (by decide)) _) fun _ => ?_
  refine comp.bind (checked_shape comp plain (plain (.chmod ..) rfl rfl (by decide)) _) fun _ => ?_
  refine comp.bind (checked_shape comp plain (plain (.chmod ..) rfl rfl (by decide)) _) fun _ => ?_
  refine comp.bind (symlinkMissing_shape comp plain (by decide) (by decide) _) fun _ => ?_
  refine comp.bind (symlinkMissing_shape comp plain (by decide) (by decide) _) fun _ => ?_
  refine comp.bind
    (checked_shape comp plain (plain (.symlink ..) rfl rfl (by decide)) _) fun _ => ?_
  refine comp.bind (plain (.mkdir ..) rfl rfl (by decide)) fun _ => ?_
  refine comp.bind (plain (.chmod ..) rfl rfl (by decide)) fun _ => ?_
  refine comp.bind (plain (.mkdir ..) rfl rfl (by decide)) fun _ => ?_
  exact comp.bind (plain (.chmod ..) rfl rfl (by decide)) fun _ => comp.pure ()

theorem udev_shape (plain : ∀ c : SysCall, c.isPlain = true → c.isIdle = true →
      c.needs ⊆ [.root, .sys] → P (sys c))
    (clears : ∀ path, fileSystemOf path = .sys → P (clearFile path))
    (runs : ∀ list, P (run list)) : P udev := by
  refine comp.bind (plain (.stat ..) rfl rfl (by decide)) fun buf => ?_
  refine comp.bind ?_ fun _ => ?_
  · exact Compositional.ite (plain (.symlink ..) rfl rfl (by decide))
      (plain (.symlink ..) rfl rfl (by decide))
  refine comp.bind (clears _ (by decide)) fun _ => ?_
  exact comp.bind (runs _) fun _ => runs _

theorem hostnameS_shape (reads : P readHostFile) (sets : ∀ name, P (sethostname name)) :
    P hostnameS := by
  have named : ∀ s, P (hostname s) := by
    intro s
    refine comp.bind reads fun file => ?_
    cases SysLinux.hostname s file with
    | none => exact comp.pure ()
    | some result => exact sets result.2
  unfold hostnameS
  cases construct Storage.zero with
  | none => exact comp.pure ()
  | some s => exact named s

theorem initD_shape (runs : ∀ list, P (run list)) : P initD := by
  unfold initD
  iterate 6 refine comp.bind (runs _) fun _ => ?_
  exact runs _

/-! ## All functions -/

section
variable {F : List FileSystem} (calls : ∀ c : SysCall, c.isIdle = true → c.needs ⊆ F → P (sys c))

include calls

omit comp in
/-- A call that needs no file system. -/
theorem free_shape {c : SysCall} (idle : c.isIdle = true) (free : c.needs = []) : P (sys c) :=
  calls c idle (by rw [free]; exact List.nil_subset F)

theorem executeArg_shape {wait fork : Bool}
    (launches : ∀ argv, P (launch wait argv (!fork))) (list : List CStr) :
    P (executeArg list wait fork) :=
  Compositional.ite (comp.bind (free_shape calls rfl rfl) fun _ => comp.pure (-1)) (launches list)

theorem run_shape (launches : ∀ argv, P (launch true argv false)) (list : List String) :
    P (run list) :=
  comp.bind (executeArg_shape comp calls launches _) fun _ => comp.pure ()

theorem setPriorityTo_shape {extreme : Int → Prog Int} (reads : ∀ policy, P (extreme policy)) :
    P (setPriorityTo extreme) := by
  refine comp.bind (free_shape calls rfl rfl) fun param => ?_
  cases param with
  | none => exact comp.pure none
  | some param =>
    refine comp.bind (reads param.1) fun prio => ?_
    exact comp.bind (free_shape calls rfl rfl) fun _ => comp.pure _

theorem setPriority_shape (old : Option Int) : P (setPriority old) := by
  cases old with
  | none => exact comp.pure ()
  | some prio => exact comp.bind (free_shape calls rfl rfl) fun _ => comp.pure ()

theorem openFd_shape {path : CStr} (root : reading path = []) : P (openFd path oRdonly) := by
  refine comp.bind (free_shape calls rfl (needs_open root _)) fun fd => ?_
  exact Compositional.ite (comp.bind (free_shape calls rfl rfl) fun _ => comp.pure fd)
    (comp.pure fd)

theorem getFullMap_shape (fd : Int) : P (getFullMap fd) := by
  refine comp.bind (free_shape calls rfl rfl) fun size => ?_
  refine comp.bind (free_shape calls rfl rfl) fun m => ?_
  cases m with
  | none => exact comp.bind (free_shape calls rfl rfl) fun _ => comp.pure none
  | some m => exact comp.pure _

theorem readaheadFile_shape (failCount : Nat) (dt : CStr) : P (readaheadFile failCount dt) := by
  refine comp.bind (free_shape calls rfl (needs_listed dt)) fun fd =>
    Compositional.ite ?_ (comp.pure _)
  refine comp.bind (free_shape calls rfl rfl) fun size => ?_
  refine comp.bind (free_shape calls rfl rfl) fun _ => ?_
  refine comp.bind (free_shape calls rfl rfl) fun _ => ?_
  exact comp.bind (free_shape calls rfl rfl) fun _ => comp.pure failCount

theorem readaheadFiles_shape (failCount : Nat) (paths : List CStr) :
    P (readaheadFiles failCount paths) := by
  induction paths generalizing failCount with
  | nil => exact comp.pure failCount
  | cons dt rest ih => exact comp.bind (readaheadFile_shape comp calls failCount dt) ih

theorem preloadReadahead_shape {fname : CStr} (root : reading fname = []) :
    P (preloadReadahead fname) := by
  refine comp.bind (openFd_shape comp calls root) fun fd => Compositional.ite ?_ (comp.pure _)
  refine comp.bind (getFullMap_shape comp calls fd) fun m => ?_
  cases m with
  | none => exact comp.pure _
  | some m => exact comp.bind (readaheadFiles_shape comp calls 0 _) fun _ => comp.pure _

theorem destroy_shape (p : Mapped) : P p.destroy := by
  have closes : P (if p.file ≠ -1 then close p.file else pure ()) :=
    Compositional.ite (free_shape calls rfl rfl) (comp.pure ())
  unfold Mapped.destroy
  cases p.m with
  | none => exact closes
  | some m => exact comp.bind (free_shape calls rfl rfl) fun _ => closes

theorem readahead_shape : P readahead := by
  refine comp.bind (setPriorityTo_shape comp calls fun _ => free_shape calls rfl rfl) fun old => ?_
  refine comp.bind (preloadReadahead_shape comp calls (by decide)) fun result => ?_
  exact comp.bind (setPriority_shape comp calls old) fun _ => destroy_shape comp calls result.1

theorem deferredTurn_shape (got : Option (List UInt8)) : P (deferredTurn got) :=
  Compositional.ite (comp.bind (free_shape calls rfl rfl) fun _ => comp.pure true) (comp.pure false)

theorem deferredModules_shape (launches : ∀ argv, P (launch true argv false))
    (polls : ∀ fd : Int, P (Program.repeatCall (SysCall.read fd 30) deferredTurn))
    (proc : .proc ∈ F) : P deferredModules := by
  refine comp.bind (setPriorityTo_shape comp calls fun _ => free_shape calls rfl rfl) fun old => ?_
  refine comp.bind (calls (.open_ ..) rfl ?_) fun fd => ?_
  · exact needs_subset (List.cons_subset.mpr ⟨proc, List.nil_subset F⟩)
  extract_lets next
  have goes_on : ∀ r, P (next r) := fun _ =>
    comp.bind (setPriority_shape comp calls old) fun _ => run_shape comp calls launches _
  refine Compositional.ite ?_ (comp.bind (free_shape calls rfl rfl) goes_on)
  exact comp.bind (polls fd) fun _ => comp.bind (free_shape calls rfl rfl) goes_on

theorem clearFile_shape {path : CStr} (within : [fileSystemOf path] ⊆ F) : P (clearFile path) := by
  refine comp.bind (calls (.fopen ..) rfl (needs_subset within)) fun stream => ?_
  cases stream with
  | none => exact free_shape calls rfl rfl
  | some pFile =>
    exact comp.bind (free_shape calls rfl rfl) fun _ => free_shape calls rfl rfl

theorem readHostFile_shape : P readHostFile := by
  refine comp.bind (free_shape calls rfl (by decide)) fun stream => ?_
  cases stream with
  | none => exact comp.bind (free_shape calls rfl rfl) fun _ => comp.pure none
  | some pFile =>
    refine comp.bind (free_shape calls rfl rfl) fun got => ?_
    exact comp.bind (free_shape calls rfl rfl) fun _ => comp.pure (some got)

end

/-- A property that sequences keep holds of the function of an entry when it holds of the calls
that need only what the function has to find, of `launch`, and of the loop of
`deferred_modules`. -/
theorem taskFnc_shape (id : BootId)
    (calls : ∀ c : SysCall, c.isOwn = true → c.needs ⊆ requires id → P (sys c))
    (launches : ∀ argv, P (launch true argv false))
    (polls : ∀ fd : Int, P (Program.repeatCall (SysCall.read fd 30) deferredTurn)) :
    P (taskFnc id) := by
  have idle : ∀ c : SysCall, c.isIdle = true → c.needs ⊆ requires id → P (sys c) :=
    fun c idle => calls c (own_of_isIdle idle)
  have plain : ∀ c : SysCall, c.isPlain = true → c.isIdle = true → c.needs ⊆ requires id →
      P (sys c) := fun c _ => idle c
  have runs := run_shape comp idle launches
  cases id with
  | readahead => exact readahead_shape comp idle
  | rootFs => exact checked_shape comp plain (calls (.mount ..) rfl (by decide)) _
  | sysFs => exact checked_shape comp plain (calls (.mount ..) rfl (by decide)) _
  | devFs => exact mountDevfs_shape comp fun c given => calls c (own_of_isPlain given)
  | tmpFs => exact checked_shape comp plain (calls (.mount ..) rfl (by decide)) _
  | runFs => exact checked_shape comp plain (calls (.mount ..) rfl (by decide)) _
  | deferred => exact deferredModules_shape comp idle launches polls (by decide)
  | hostname =>
    exact hostnameS_shape comp (readHostFile_shape comp idle) fun _ => free_shape idle rfl rfl
  | allFs => exact checked_shape comp plain (executeArg_shape comp idle launches _) _
  | setupFs => exact setupFs_shape comp plain
  | udev =>
    refine udev_shape comp plain (fun path sys => clearFile_shape comp idle ?_) runs
    rw [sys]
    decide
  | acpi => exact runs _
  | dbus => exact runs _
  | slim => exact runs _
  | procps => exact runs _
  | initD => exact initD_shape comp runs
  | _ => exact comp.pure ()

/-! ## `main` -/

section
variable (calls : ∀ c : SysCall, c.isIdle = true → c.needs ⊆ [.proc] → P (sys c))

include calls

theorem reopenStdout_shape : P reopenStdout :=
  comp.bind (calls (.freopen ..) rfl (by decide)) fun _ =>
    Compositional.ite (free_shape calls rfl rfl) (comp.pure ())

theorem cmdlineWords_shape (tstr : List UInt8) : P (cmdlineWords tstr) := by
  have opens :
      P (checkNot (open_ (ascii "/proc/cmdline") oRdonly) (-1) (ascii "/proc/cmdline")) := by
    refine comp.bind (calls (.open_ ..) rfl (by decide)) fun fd => ?_
    exact Compositional.ite (comp.bind (free_shape calls rfl rfl) fun _ => comp.pure fd)
      (comp.pure fd)
  refine comp.bind opens fun fd => Compositional.ite ?_ (comp.pure [])
  refine comp.bind (free_shape calls rfl rfl) fun got => ?_
  refine comp.bind (free_shape calls rfl rfl) fun _ => ?_
  cases cmdline fd tstr (got.getD []) with
  | none => exact comp.pure []
  | some result => exact comp.pure _

theorem startOptions_shape (launches : ∀ wait argv nofork, P (launch wait argv nofork))
    (options : Options) : P (startOptions options) := by
  have executes : ∀ list wait fork, P (executeArg list wait fork) :=
    fun list wait fork => executeArg_shape comp calls (fun argv => launches wait argv _) list
  refine comp.bind (Compositional.ite (executes _ _ _) (comp.pure 0)) fun _ => ?_
  exact comp.bind (Compositional.ite (executes _ _ _) (comp.pure 0)) fun _ => comp.pure ()

theorem afterProcfs_shape (launches : ∀ wait argv nofork, P (launch wait argv nofork))
    (starts : P (start 5)) (exits : P (exit 0 : Prog Unit)) (tstr : List UInt8) :
    P (afterProcfs tstr) := by
  refine comp.bind (cmdlineWords_shape comp calls tstr) fun words => ?_
  refine comp.bind (startOptions_shape comp calls launches _) fun _ => ?_
  refine comp.bind (free_shape calls rfl rfl) fun _ => comp.bind starts fun _ => ?_
  exact comp.bind (executeArg_shape comp calls (fun argv => launches _ argv _) _) fun _ => exits

end

end

end DebianConf.Boot
