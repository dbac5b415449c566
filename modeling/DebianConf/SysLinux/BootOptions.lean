import DebianConf.SysLinux.CString
import DebianConf.SysLinux.SplitSafety

/-!
# The boot options

What `main` of `root/preload_main.cpp` does as process 1 until it executes `init`: it splits
`/proc/cmdline`, looks for two words, and starts programs and the scheduler.
-/

namespace DebianConf.SysLinux

open DebianConf.Lib DebianConf.Preload

/-! ## The calls of `main` -/

inductive Call where
  | launch (wait : Bool) (argv : List String) (nofork : Bool)
  | printf (text : String)
  | setenv (name value : String)
  | schedulerStart (n : Nat)
  deriving DecidableEq, Repr

/-- A process and the calls it has made. It throws when another program replaces it. -/
abbrev Process := ExceptT Unit (StateM (List Call))

def call (c : Call) : Process Unit := modify (· ++ [c])

/-- `launch` (`sys_linux.h:167-192`). Without a fork it does not return, also when `execv` fails. -/
def launch (wait : Bool) (argv : List String) (nofork : Bool) : Process Unit := do
  call (.launch wait argv nofork)
  if nofork then throw ()

/-- `execute_arg` (`sys_linux.h:147-165`). -/
def executeArg (list : List String) (wait fork : Bool) : Process Unit :=
  if 19 < list.length then call (.printf "too many arguments")
  else launch wait list (!fork)

/-- `init_app` (`preload_main.cpp:71`). -/
def initApp : String := "/sbin/init"

/-- The two flags that the word loop sets (`preload_main.cpp:73-74`). -/
structure Options where
  bootchartd : Bool := false
  single : Bool := false
  deriving DecidableEq, Repr

/-- The loop over the words of the command line (`preload_main.cpp:98-108`). -/
def readOptions (options : Options) : List (List UInt8) → Options
  | [] => options
  | p :: cmdline =>
    if p = ascii "bootchart" then readOptions { options with bootchartd := true } cmdline
    else if p = ascii "single" then { options with single := false }
    else readOptions options cmdline

/-- `main` after the word loop (`preload_main.cpp:110-149`). -/
def boot (options : Options) : Process Unit := do
  -- single user mode, start init
  if options.single then executeArg [initApp] false false
  if options.bootchartd then
    executeArg ["/lib/bootchart/bootchart-collector", "50"] false true
  call (.setenv "CINIT" "1")
  call (.schedulerStart 5)
  -- start init application
  executeArg [initApp] false false

def Process.calls (process : Process Unit) : List Call := (process.run.run []).2

/-- Read `/proc/cmdline` into `tstr` and split it (`preload_main.cpp:88-97`): `tstr` and the
pointers into it. The buffer is not initialised, `fd` is what `open` returned and `file` what the
kernel has to read. -/
def cmdline (fd : Int) (tstr file : List UInt8) : Option (List UInt8 × List Nat) := do
  if fd > 0 then
    let tstr ← store tstr 0 0
    let got := file.take (255 - 1)
    let r := got.length
    let tstr := got ++ tstr.drop r
    -- remove ending \n
    let tstr ← if r > 0 then store tstr (r - 1) 0 else some tstr
    split tstr
  else some (tstr, [])

/-- The calls of `main` as process 1 (`preload_main.cpp:69-151`). -/
def main (fd : Int) (tstr file : List UInt8) : Option (List Call) := do
  let (mem, words) ← cmdline fd tstr file
  return (boot (readOptions {} (words.map (cstr mem)))).calls

/-! ## What the options ask for -/

/-- `first` is called, before any call of `others`. -/
def ComesFirst (calls : List Call) (first : Call) (others : List Call) : Prop :=
  calls.find? (fun c => c = first ∨ c ∈ others) = some first

def execInit : Call := .launch false [initApp] true
def startCollector : Call := .launch false ["/lib/bootchart/bootchart-collector", "50"] false
def startScheduler : Call := .schedulerStart 5

/-- With the word `single` the process becomes `init` before anything is started. Without it, the
collector is started before the scheduler exactly when there is the word `bootchart`. -/
structure Honoured (words : List (List UInt8)) (calls : List Call) : Prop where
  single : ComesFirst calls execInit [startCollector, startScheduler] ↔ ascii "single" ∈ words
  bootchart : ascii "single" ∉ words →
    (ComesFirst calls startCollector [startScheduler] ↔ ascii "bootchart" ∈ words)

theorem readOptions_single (options : Options) (words : List (List UInt8))
    (multi_user : options.single = false) : (readOptions options words).single = false := by
  induction words generalizing options with
  | nil => exact multi_user
  | cons p cmdline ih =>
    unfold readOptions
    split
    · exact ih _ multi_user
    · split
      · rfl
      · exact ih _ multi_user

theorem readOptions_bootchartd (options : Options) (words : List (List UInt8))
    (no_single : ascii "single" ∉ words) : (readOptions options words).bootchartd = true ↔
      options.bootchartd = true ∨ ascii "bootchart" ∈ words := by
  induction words generalizing options with
  | nil => simp [readOptions]
  | cons p cmdline ih =>
    rw [List.mem_cons, not_or] at no_single
    unfold readOptions
    by_cases bootchart : p = ascii "bootchart"
    · rw [if_pos bootchart, ih _ no_single.2]
      simp [bootchart]
    · rw [if_neg bootchart, if_neg (Ne.symm no_single.1), ih _ no_single.2, List.mem_cons]
      simp [Ne.symm bootchart]

theorem boot_multi_user (bootchartd : Bool) :
    ¬ ComesFirst (boot ⟨bootchartd, false⟩).calls execInit [startCollector, startScheduler] ∧
      (ComesFirst (boot ⟨bootchartd, false⟩).calls startCollector [startScheduler] ↔
        bootchartd = true) := by
  unfold ComesFirst
  cases bootchartd <;> decide +kernel

/-- The options are honoured exactly when `single` is not one of them. -/
theorem honoured_iff (words : List (List UInt8)) :
    Honoured words (boot (readOptions {} words)).calls ↔ ascii "single" ∉ words := by
  have multi_user := readOptions_single {} words rfl
  have bootchart := readOptions_bootchartd {} words
  cases found : readOptions {} words with
  | mk bootchartd single =>
    rw [found] at multi_user bootchart
    subst multi_user
    obtain ⟨never, collector⟩ := boot_multi_user bootchartd
    refine ⟨fun honoured present => never (honoured.single.mpr present), fun absent => ?_⟩
    exact ⟨iff_of_false never absent, fun _ => collector.trans (by simpa using bootchart absent)⟩

/-! ## The command line -/

/-- `split` on a buffer with a NUL anywhere in it. -/
theorem split_buffer (body more : List UInt8) : ∃ args final rest,
    Splits 0 (upToNul body) args final ∧
      split (body ++ 0 :: more) = some (final ++ 0 :: rest, args.map Argument.start) ∧
      (args.map Argument.start).map (cstr (final ++ 0 :: rest)) = args.map Argument.text := by
  obtain ⟨args, final, splits⟩ := splits_exist 0 (upToNul body)
  obtain ⟨no_nul, rest, shape⟩ := holds_upToNul body more
  refine ⟨args, final, rest, splits, shape ▸ splits.split no_nul rest, ?_⟩
  rw [List.map_map]
  exact List.map_congr_left (splits.cstr no_nul rest)

/-- The buffer that `main` splits: the line without its last byte, and a NUL. -/
theorem cmdline_eq {fd : Int} {tstr body : List UInt8} (opened : 0 < fd)
    (size : tstr.length = 255) (short : body.length < 254) : ∃ more,
      cmdline fd tstr (body ++ [10]) = split (body ++ 0 :: more) := by
  have whole : (body ++ [10]).take (255 - 1) = body ++ [10] :=
    List.take_of_length_le (by simp; omega)
  refine ⟨(tstr.set 0 0).drop (body ++ [10]).length, ?_⟩
  have first : store tstr 0 0 = some (tstr.set 0 0) := if_pos (by omega)
  have last : ∀ rest, store (body ++ [10] ++ rest) ((body ++ [10]).length - 1) 0 =
      some (body ++ 0 :: rest) := by
    intro rest
    rw [store, if_pos (by simp)]
    simp
  rw [cmdline, if_pos opened]
  simp only [first, whole, Option.bind_eq_bind, Option.bind_some, last]
  rw [if_pos (by simp)]

/-- The boot options of a command line are honoured exactly when no word of it is `single`: `main`
clears the flag that it should set. -/
theorem boot_options_iff (fd : Int) (tstr body : List UInt8) (size : tstr.length = 255)
    (short : body.length < 254) : ∃ args final mem pushed calls,
      Splits 0 (upToNul body) args final ∧
      cmdline fd tstr (body ++ [10]) = some (mem, pushed) ∧
      (0 < fd → pushed.map (cstr mem) = args.map Argument.text) ∧
      main fd tstr (body ++ [10]) = some calls ∧
      (Honoured (pushed.map (cstr mem)) calls ↔
        (0 < fd → ∀ arg ∈ args, arg.text ≠ ascii "single")) := by
  by_cases opened : 0 < fd
  · obtain ⟨more, buffer⟩ := cmdline_eq opened size short
    obtain ⟨args, final, rest, splits, split, words⟩ := split_buffer body more
    rw [split] at buffer
    refine ⟨args, final, _, _, _, splits, buffer, fun _ => words, by rw [main, buffer]; rfl, ?_⟩
    rw [honoured_iff, words]
    simp [opened]
  · obtain ⟨args, final, splits⟩ := splits_exist 0 (upToNul body)
    have buffer : cmdline fd tstr (body ++ [10]) = some (tstr, []) := by
      rw [cmdline, if_neg opened]
    refine ⟨args, final, _, _, _, splits, buffer, fun positive => absurd positive opened,
      by rw [main, buffer]; rfl, ?_⟩
    rw [honoured_iff]
    simp [opened]

/-- With `quiet single` on the command line the boot goes on to the scheduler. -/
theorem single_ignored : ∃ mem pushed calls,
    cmdline 3 (List.replicate 255 0) (ascii "quiet single\n") = some (mem, pushed) ∧
      main 3 (List.replicate 255 0) (ascii "quiet single\n") = some calls ∧
      pushed.map (cstr mem) = [ascii "quiet", ascii "single"] ∧
      ¬ Honoured (pushed.map (cstr mem)) calls := by
  have buffer : cmdline 3 (List.replicate 255 0) (ascii "quiet single\n") =
      some (ascii "quiet" ++ 0 :: (ascii "single" ++ List.replicate 243 0), [0, 6]) := by
    decide +kernel
  have words : [0, 6].map
      (cstr (ascii "quiet" ++ 0 :: (ascii "single" ++ List.replicate 243 0))) =
        [ascii "quiet", ascii "single"] := by
    decide +kernel
  refine ⟨_, _, _, buffer, by rw [main, buffer]; rfl, words, ?_⟩
  rw [honoured_iff, words]
  simp

theorem boot_options_quiet : (List.replicate 255 (0 : UInt8)).length = 255 ∧
    ∃ (args : List Argument) (mem : List UInt8) (pushed : List Nat) (calls : List Call),
      cmdline 3 (List.replicate 255 0) (ascii "quiet" ++ [10]) = some (mem, pushed) ∧
      pushed.map (cstr mem) = args.map Argument.text ∧
      main 3 (List.replicate 255 0) (ascii "quiet" ++ [10]) = some calls ∧
      (Honoured (pushed.map (cstr mem)) calls ↔ ∀ arg ∈ args, arg.text ≠ ascii "single") := by
  obtain ⟨args, final, mem, pushed, calls, -, buffer, words, run, iff⟩ :=
    boot_options_iff 3 (List.replicate 255 0) (ascii "quiet") List.length_replicate (by decide)
  exact ⟨List.length_replicate, args, mem, pushed, calls, buffer, words (by decide), run,
    iff.trans ⟨fun holds => holds (by decide), fun holds _ => holds⟩⟩

end DebianConf.SysLinux
