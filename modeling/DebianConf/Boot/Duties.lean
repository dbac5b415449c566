import DebianConf.Boot.LedgerRuns
import DebianConf.Boot.MountOrder

/-!
# What the functions have to do

The mounts that a function makes and the commands that it starts, in this order, whatever its
calls answer. A contract says it of the calls: the next mount or `fork` is the next thing to do,
and the new process executes the command that it was made for.
-/

namespace DebianConf.Boot

open DebianConf.Lib DebianConf.SysLinux DebianConf.Preload DebianConf.Tasks

/-- Something that is done once in a boot. -/
inductive Deed where
  | mounts (source target fstype : CStr) (flags : List MountFlag) (data : CStr)
  | starts (argv : List CStr)
  deriving DecidableEq

/-- A command that is started. -/
def command (list : List String) : Deed := .starts (list.map ascii)

/-- What the function of an entry does. -/
def duties : BootId → List Deed
  | .rootFs => [.mounts (ascii "/dev/sda5") (ascii "/") (ascii "ext4")
      [.noatime, .nodiratime, .remount, .silent] (ascii "")]
  | .sysFs => [.mounts (ascii "sys") (ascii "/sys") (ascii "sysfs")
      [.noatime, .nodiratime, .nodev, .noexec, .silent, .nosuid] (ascii "")]
  | .devFs => [.mounts (ascii "dev") (ascii "/dev") (ascii "devtmpfs") [.silent] (ascii ""),
      .mounts (ascii "pts") (ascii "/dev/pts") (ascii "devpts") [.silent, .nosuid, .noexec]
        (ascii "gid=5,mode=620")]
  | .tmpFs => [.mounts (ascii "tmp") (ascii "/tmp") (ascii "tmpfs")
      [.nodev, .noexec, .silent, .nosuid] (ascii "")]
  | .runFs => [.mounts (ascii "run") (ascii "/run") (ascii "tmpfs")
      [.nodev, .noexec, .silent, .nosuid] (ascii "")]
  | .deferred => [command ["/bin/udevadm", "trigger"]]
  | .allFs => [command ["/bin/mount", "-a"]]
  | .udev => [command ["/sbin/udevd", "--daemon"],
      command ["/bin/udevadm", "trigger", "--action=add"]]
  | .acpi => [command ["/etc/init.d/acpid", "start"]]
  | .dbus => [command ["/etc/init.d/dbus", "start"]]
  | .slim => [command ["/etc/init.d/slim", "start"]]
  | .procps => [command ["/sbin/sysctl", "-q", "--system"]]
  | .initD => [command ["/etc/init.d/keyboard-setup", "start"],
      command ["/etc/init.d/hwclock", "start"], command ["/etc/init.d/kbd", "start"],
      command ["/etc/init.d/console-setup", "start"], command ["/lib/udev/udev-finish"],
      command ["/etc/init.d/urandom", "start"], command ["/etc/init.d/networking", "start"]]
  | _ => []

/-- The command that is started only if the kernel command line asks for it. -/
def bootchart : Deed := command ["/lib/bootchart/bootchart-collector", "50"]

/-- What `main` does before the scheduler. -/
def mainDuties : List Deed :=
  [.mounts (ascii "") (ascii "/proc") (ascii "proc")
    [.noatime, .nodiratime, .nodev, .noexec, .silent, .nosuid] (ascii ""), bootchart]

/-! ## The contract -/

/-- Whether the words of the kernel command line ask for `bootchart`, given what `open` and `read`
have answered. -/
def asked (tstr : List UInt8) (heard : Int × List UInt8) : Bool :=
  match cmdline heard.1 tstr heard.2 with
  | some (mem, pushed) => (readOptions {} (pushed.map (cstr mem))).bootchartd
  | none => false

/-- What `open` and `read` have answered last. -/
def hear (heard : Int × List UInt8) : (c : SysCall) → c.Answer → Int × List UInt8
  | .open_ _ _, (fd : Int) => (fd, heard.2)
  | .read _ _, (got : Option (List UInt8)) => (heard.1, got.getD [])
  | _, _ => heard

/-- What an actor has yet to do in its function, what it has done, the program that it is to
execute itself, and whether it is `main`. -/
structure Duty where
  left : List Deed
  made : List Deed
  program : Option (List CStr)
  heard : Int × List UInt8
  main : Bool

/-- What `main` leaves out. -/
def Duty.skipped (tstr : List UInt8) (g : Duty) : List Deed :=
  if g.main && !asked tstr g.heard then [bootchart] else []

/-- The next thing is done next, and nothing is left out but the command of `bootchart` that was
not asked for. -/
def Duty.allows (tstr : List UInt8) (g : Duty) : SysCall → Prop
  | .mount source target fstype flags data =>
    ∃ rest, g.left = .mounts source target fstype flags data :: rest
  | .fork => ∃ argv rest, g.left = .starts argv :: rest
  | .execv argv => g.program = some argv ∧ g.left = g.skipped tstr
  | _ => True

/-- The command that is started next. -/
def Duty.next (g : Duty) : Option (List CStr) :=
  match g.left with
  | .starts argv :: _ => some argv
  | _ => none

/-- The first thing that was left has been done. -/
def Duty.advance (g : Duty) : Duty :=
  { g with left := g.left.tail, made := g.left.take 1 ++ g.made }

/-- The page of a new process. -/
def Duty.child (g : Duty) : Duty := ⟨[], [], g.next, g.heard, false⟩

def Duty.after (g : Duty) : (c : SysCall) → c.Answer → Duty
  | .mount _ _ _ _ _, _ => g.advance
  | .fork, (pid : Int) => if pid = 0 then g.child else g.advance
  | c, r => { g with heard := hear g.heard c r }

abbrev dutyRules (tstr : List UInt8) : Contract SysCall SysCall.Answer where
  Ghost := Duty
  allows := Duty.allows tstr
  answers _ _ _ := True
  after := Duty.after

/-- From `g` to `g'`, `deeds` have been done and `rest` is left. -/
structure Duty.Did (deeds rest : List Deed) (g g' : Duty) : Prop where
  left : g'.left = rest
  made : g'.made = deeds.reverse ++ g.made
  program : g'.program = g.program
  main : g'.main = g.main

/-- The program does `deeds`, in this order. -/
def Does (tstr : List UInt8) {α : Type} (deeds : List Deed) (p : Prog α) : Prop :=
  ∀ g rest, g.left = deeds ++ rest → p.wp (dutyRules tstr) (fun _ => g.Did deeds rest) g

section
variable {α β : Type} {tstr : List UInt8} {deeds : List Deed}

theorem Duty.Did.same {g g' : Duty} {rest : List Deed} (left : g.left = rest)
    (same : g'.left = g.left ∧ g'.made = g.made ∧ g'.program = g.program ∧ g'.main = g.main) :
    g.Did [] rest g' :=
  ⟨same.1.trans left, same.2.1, same.2.2.1, same.2.2.2⟩

theorem Duty.Did.trans {deeds' rest rest' : List Deed} {g g' g'' : Duty}
    (first : g.Did deeds rest g') (second : g'.Did deeds' rest' g'') :
    g.Did (deeds ++ deeds') rest' g'' where
  left := second.left
  made := by rw [second.made, first.made, List.reverse_append, List.append_assoc]
  program := second.program.trans first.program
  main := second.main.trans first.main

theorem Does.pure (a : α) : Does tstr [] (pure a) :=
  fun _ _ left => Duty.Did.same left ⟨rfl, rfl, rfl, rfl⟩

theorem Does.bind {deeds' : List Deed} {p : Prog α} {f : α → Prog β} (first : Does tstr deeds p)
    (second : ∀ a, Does tstr deeds' (f a)) : Does tstr (deeds ++ deeds') (p >>= f) := by
  intro g rest left
  apply Program.wp_then (first g (deeds' ++ rest) (by rw [left, List.append_assoc]))
  intro a g' did
  exact Program.wp_mono (fun _ _ did' => did.trans did') (second a g' rest did.left)

/-- What comes first does one thing. -/
theorem Does.cons {deed : Deed} {p : Prog α} {f : α → Prog β} (first : Does tstr [deed] p)
    (second : ∀ a, Does tstr deeds (f a)) : Does tstr (deed :: deeds) (p >>= f) :=
  first.bind second

/-- What comes first does nothing that counts. -/
theorem Does.after_idle {p : Prog α} {f : α → Prog β} (first : Does tstr [] p)
    (second : ∀ a, Does tstr deeds (f a)) : Does tstr deeds (p >>= f) := first.bind second

/-- What comes last does nothing that counts. -/
theorem Does.before_idle {p : Prog α} {f : α → Prog β} (first : Does tstr deeds p)
    (second : ∀ a, Does tstr [] (f a)) : Does tstr deeds (p >>= f) :=
  List.append_nil deeds ▸ first.bind second

theorem idle_compositional (tstr : List UInt8) :
    Program.Compositional (fun {α : Type} (p : Prog α) => Does tstr [] p) :=
  ⟨Does.pure, Does.after_idle⟩

theorem Does.ite {c : Prop} [Decidable c] {p q : Prog α} (yes : Does tstr deeds p)
    (no : Does tstr deeds q) : Does tstr deeds (if c then p else q) :=
  Program.Compositional.ite (P := Does tstr deeds) yes no

theorem duty_allows {c : SysCall} (idle : c.isIdle = true) (g : Duty) : g.allows tstr c := by
  cases c <;> trivial

theorem duty_after {c : SysCall} (idle : c.isIdle = true) (g : Duty) (r : c.Answer) :
    g.after c r = { g with heard := hear g.heard c r } := by
  cases c <;> first | rfl | cases idle

theorem Does.sys {c : SysCall} (idle : c.isIdle = true) : Does tstr [] (sys c) := by
  intro g rest left
  refine Program.wp_call (duty_allows idle g) fun r _ => Duty.Did.same left ?_
  show (g.after c r).left = _ ∧ (g.after c r).made = _ ∧ (g.after c r).program = _ ∧
    (g.after c r).main = _
  rw [duty_after idle]
  exact ⟨rfl, rfl, rfl, rfl⟩

theorem Does.repeatCall {c : SysCall} {body : c.Answer → Prog Bool} (idle : c.isIdle = true)
    (turn : ∀ r, Does tstr [] (body r)) : Does tstr [] (Program.repeatCall c body) := by
  intro g rest left
  have start : g.Did [] rest g := Duty.Did.same left ⟨rfl, rfl, rfl, rfl⟩
  refine Program.wp_repeatCall (g.Did [] rest) start (fun g' _ => duty_allows idle g') ?_
  intro g' did r _
  have call : g'.Did [] rest (g'.after c r) := by
    rw [duty_after idle]
    exact Duty.Did.same did.left ⟨rfl, rfl, rfl, rfl⟩
  apply Program.wp_mono _ (turn r _ rest call.left)
  intro again g'' did'
  cases again with
  | true => exact (did.trans call).trans did'
  | false => exact (did.trans call).trans did'

theorem Duty.did_advance {g : Duty} {deed : Deed} {rest : List Deed}
    (left : g.left = deed :: rest) : g.Did [deed] rest g.advance where
  left := by rw [advance, left, List.tail_cons]
  made := by rw [advance, left]; rfl
  program := rfl
  main := rfl

theorem Does.mount (source target fstype : CStr) (flags : List MountFlag) (data msg : CStr) :
    Does tstr [.mounts source target fstype flags data]
      (checkZero (mount source target fstype flags data) msg) := by
  refine Does.before_idle ?_ fun r => Does.ite (Does.sys rfl) (Does.pure ())
  intro g rest left
  exact Program.wp_call ⟨rest, left⟩ fun _ _ => Duty.did_advance left

/-- The program changes nothing on the page. -/
def Still (tstr : List UInt8) {α : Type} (p : Prog α) : Prop :=
  ∀ g, p.wp (dutyRules tstr) (fun _ g' => g' = g) g

theorem still_compositional (tstr : List UInt8) :
    Program.Compositional (fun {α : Type} (p : Prog α) => Still tstr p) :=
  ⟨fun _ _ => rfl, fun first rest g => Program.wp_then_at (first g) fun a => rest a g⟩

theorem Still.sys {c : SysCall} (idle : c.isIdle = true)
    (deaf : ∀ heard r, hear heard c r = heard) : Still tstr (sys c) := by
  intro g
  refine Program.wp_call (duty_allows idle g) fun r _ => (duty_after idle g r).trans ?_
  rw [deaf]

/-- The new process executes the command, the other one goes on. -/
theorem duty_launch (wait : Bool) {argv : List CStr} {g : Duty} {rest : List Deed}
    (left : g.left = .starts argv :: rest) :
    (launch wait argv false).wp (dutyRules tstr) (fun _ g' => g' = g.advance) g := by
  unfold Boot.launch
  rw [if_neg Bool.false_ne_true]
  refine Program.wp_call_seq ⟨argv, rest, left⟩ fun (pid : Int) _ => ?_
  extract_lets next
  by_cases child : pid = 0
  · subst child
    show Program.wp (dutyRules tstr) (execv argv >>= fun _ => (exit 1 : Prog Int)) _ g.child
    have program : g.child.program = some argv := by
      rw [Duty.child, Duty.next, left]
    exact ⟨⟨program, rfl⟩, fun _ _ => ⟨trivial, fun r => r.elim⟩⟩
  · show Program.wp (dutyRules tstr) _ _ (if pid = 0 then _ else _)
    rw [if_neg child]
    have comp := still_compositional tstr
    have goes_on : ∀ status, Still tstr (next status) := by
      intro status
      show Still tstr (if pid = 0 then _ else _)
      rw [if_neg child]
      exact comp.pure status
    have ends : Still tstr (if pid = -1 then perror (argv.headD []) >>= fun _ => next (-1)
        else if pid > 0 then if wait then waitpid pid >>= next else next 0 else next 0) := by
      refine Program.Compositional.ite (P := Still tstr)
        (comp.bind (Still.sys rfl fun _ _ => rfl) fun _ => goes_on (-1)) ?_
      refine Program.Compositional.ite (P := Still tstr)
        (Program.Compositional.ite (P := Still tstr) ?_ (goes_on 0)) (goes_on 0)
      exact comp.bind (Still.sys rfl fun _ _ => rfl) goes_on
    exact ends g.advance

/-- A command with few arguments is launched. -/
theorem duty_executeArg {list : List CStr} (few : list.length ≤ 19) (wait : Bool) {g : Duty}
    {rest : List Deed} (left : g.left = .starts list :: rest) :
    (executeArg list wait true).wp (dutyRules tstr) (fun _ g' => g' = g.advance) g := by
  rw [Boot.executeArg, if_neg (Nat.not_lt.mpr few)]
  exact duty_launch wait left

theorem Does.executeArg {list : List CStr} (few : list.length ≤ 19) (wait : Bool) :
    Does tstr [.starts list] (executeArg list wait true) := by
  intro g rest left
  apply Program.wp_mono _ (duty_executeArg few wait left)
  rintro _ _ rfl
  exact Duty.did_advance left

theorem Does.run {list : List String} (few : list.length ≤ 19) :
    Does tstr [command list] (run list) :=
  Does.before_idle (Does.executeArg ((List.length_map ascii).trans_le few) true) fun _ =>
    Does.pure ()

end

/-! ## The functions -/

section
variable {tstr : List UInt8}

theorem does_deferredModules : Does tstr (duties .deferred) deferredModules := by
  have idle : ∀ c : SysCall, c.isIdle = true → c.needs ⊆ [.proc] → Does tstr [] (sys c) :=
    fun _ idle _ => Does.sys idle
  have ends : ∀ old, Does tstr (duties .deferred)
      (setPriority old >>= fun _ => run ["/bin/udevadm", "trigger"]) := fun old =>
    Does.after_idle (setPriority_shape (idle_compositional tstr) idle old) fun _ =>
      Does.run (by decide)
  refine Does.after_idle (setPriorityTo_shape (idle_compositional tstr) idle fun _ => Does.sys rfl)
    fun old => Does.after_idle (Does.sys rfl) fun fd => ?_
  refine Does.ite (Does.after_idle ?_ fun _ => ?_)
    (Does.after_idle (Does.sys rfl) fun _ => ends old)
  · exact Does.repeatCall rfl (deferredTurn_shape (idle_compositional tstr) idle)
  · exact Does.after_idle (Does.sys rfl) fun _ => ends old

theorem does_udev : Does tstr (duties .udev) udev := by
  refine Does.after_idle (Does.sys rfl) fun buf => ?_
  refine Does.after_idle (Does.ite (Does.sys rfl) (Does.sys rfl)) fun _ => ?_
  refine Does.after_idle ?_ fun _ => ?_
  · exact clearFile_shape (F := [.sys]) (idle_compositional tstr) (fun _ idle _ => Does.sys idle)
      (by decide)
  · exact Does.cons (Does.run (by decide)) fun _ => Does.run (by decide)

theorem does_initD : Does tstr (duties .initD) initD := by
  unfold initD
  iterate 6 refine Does.cons (Does.run (by decide)) fun _ => ?_
  exact Does.run (by decide)

/-- A function of the table does what it has to do, whatever its calls answer. -/
theorem does_taskFnc (tstr : List UInt8) (id : BootId) : Does tstr (duties id) (taskFnc id) := by
  have idle : ∀ {F : List FileSystem} (c : SysCall), c.isIdle = true → c.needs ⊆ F →
      Does tstr [] (sys c) := fun _ idle _ => Does.sys idle
  cases id with
  | readahead => exact readahead_shape (F := []) (idle_compositional tstr) idle
  | rootFs => exact Does.mount _ _ _ _ _ _
  | sysFs => exact Does.mount _ _ _ _ _ _
  | devFs =>
    refine Does.cons (Does.mount _ _ _ _ _ _) fun _ => ?_
    refine Does.after_idle ?_ fun _ => Does.mount _ _ _ _ _ _
    exact checkZero_shape (idle_compositional tstr) (Does.sys rfl) (Does.sys rfl)
  | tmpFs => exact Does.mount _ _ _ _ _ _
  | runFs => exact Does.mount _ _ _ _ _ _
  | deferred => exact does_deferredModules
  | hostname =>
    exact hostnameS_shape (idle_compositional tstr)
      (readHostFile_shape (F := []) (idle_compositional tstr) idle) fun _ => Does.sys rfl
  | allFs =>
    refine Does.before_idle (Does.executeArg (by decide) true) fun r => ?_
    exact Does.ite (Does.sys rfl) (Does.pure ())
  | setupFs => exact setupFs_shape (idle_compositional tstr) fun c _ => idle c
  | udev => exact does_udev
  | acpi => exact Does.run (by decide)
  | dbus => exact Does.run (by decide)
  | slim => exact Does.run (by decide)
  | procps => exact Does.run (by decide)
  | initD => exact does_initD
  | _ => exact Does.pure ()

end

/-! ## `main` -/

section
variable {tstr : List UInt8}

/-- `main` may become `init`. -/
def Duty.Ready (tstr : List UInt8) (g : Duty) : Prop :=
  g.program = some [ascii initApp] ∧ g.left = g.skipped tstr

theorem wp_becomeInit {α : Type} {f : Int → Prog α} {Q : α → Duty → Prop} {g : Duty}
    (ready : g.Ready tstr) :
    (executeArg [ascii initApp] false false >>= f).wp (dutyRules tstr) Q g := by
  have becomes : ((execv [ascii initApp] >>= fun _ => (exit 1 : Prog Int)) >>= f).wp
      (dutyRules tstr) Q g := ⟨ready, fun _ _ => ⟨trivial, fun r => r.elim⟩⟩
  exact becomes

/-- `main` hears the kernel command line and reads the options from it. -/
theorem wp_cmdlineWords (g : Duty) : (cmdlineWords tstr).wp (dutyRules tstr) (fun words g' =>
    ∃ heard, g' = { g with heard := heard } ∧
      (readOptions {} words).bootchartd = asked tstr heard) g := by
  refine Program.wp_then (M := fun fd g' => g' = { g with heard := (fd, g.heard.2) }) ?_ ?_
  · refine Program.wp_call_seq trivial fun (fd : Int) _ => ?_
    show Program.wp (dutyRules tstr)
      (if fd = -1 then perror _ >>= fun _ => pure fd else pure fd) _ _
    split
    · exact Program.wp_call_seq trivial fun _ _ => rfl
    · rfl
  · rintro fd _ rfl
    by_cases opened : fd > 0
    · rw [if_pos opened]
      refine Program.wp_call_seq trivial fun (got : Option (List UInt8)) _ =>
        Program.wp_call_seq trivial fun _ _ => ?_
      cases words : cmdline fd tstr (got.getD []) with
      | some result => exact ⟨(fd, got.getD []), rfl, by rw [asked, words]⟩
      | none => exact ⟨(fd, got.getD []), rfl, by rw [asked, words]; rfl⟩
    · rw [if_neg opened]
      refine ⟨(fd, g.heard.2), rfl, ?_⟩
      rw [asked, cmdline, if_neg opened]
      rfl

/-- The command of `bootchart` is started if it was asked for. -/
theorem ready_startOptions {options : Options} (multi_user : options.single = false) {g : Duty}
    (main : g.main = true) (program : g.program = some [ascii initApp])
    (left : g.left = [bootchart]) (asks : options.bootchartd = asked tstr g.heard) :
    (startOptions options).wp (dutyRules tstr) (fun _ g' => g'.Ready tstr) g := by
  unfold startOptions
  rw [multi_user, asks]
  cases found : asked tstr g.heard with
  | true =>
    apply Program.wp_seq
    refine Program.wp_then_at (duty_executeArg (by decide) false left) fun _ => ⟨program, ?_⟩
    have skipped : g.advance.skipped tstr = [] := by
      rw [Duty.skipped, Duty.advance, found]
      simp
    rw [skipped, Duty.advance, left, List.tail_cons]
  | false =>
    refine ⟨program, ?_⟩
    rw [left, Duty.skipped, main, found]
    rfl

/-- The page that `main` begins with. -/
def mainPage : Duty := ⟨mainDuties, [], some [ascii initApp], (-1, []), true⟩

/-- The page that every other actor begins with. -/
def idlePage : Duty := ⟨[], [], none, (-1, []), false⟩

theorem wp_mainInit_duty (tstr : List UInt8) :
    (mainInit tstr).wp (dutyRules tstr) (fun _ _ => True) mainPage := by
  have idle : ∀ c : SysCall, c.isIdle = true → c.needs ⊆ [.proc] → Does tstr [] (sys c) :=
    fun _ idle _ => Does.sys idle
  have mounts : Does tstr (mainDuties.take 1) (reopenStdout >>= fun _ => mountProcfs) :=
    Does.after_idle (reopenStdout_shape (idle_compositional tstr) idle) fun _ =>
      Does.mount _ _ _ _ _ _
  unfold mainInit
  rw [← Program.seq_assoc]
  apply Program.wp_then (mounts mainPage [bootchart] rfl)
  intro _ g did
  apply Program.wp_then (wp_cmdlineWords g)
  rintro words _ ⟨heard, rfl, asks⟩
  have ready := ready_startOptions (readOptions_single {} words rfl)
    (g := { g with heard := heard }) did.main did.program did.left asks
  apply Program.wp_then ready
  intro _ g ready
  apply Program.wp_then_at (Still.sys rfl (fun _ _ => rfl) g)
  intro _
  refine Program.wp_call_seq trivial fun _ _ => ?_
  exact wp_becomeInit ready

end

end DebianConf.Boot
