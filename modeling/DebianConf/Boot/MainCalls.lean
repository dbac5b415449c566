import DebianConf.Boot.Functions

/-!
# The calls of `main`

`main` as process 1 is modelled twice: by the list of calls that the kernel command line leads to,
and as a program that makes system calls. The program performs exactly this list, in its order.
-/

namespace DebianConf.Boot

open DebianConf.Lib DebianConf.SysLinux DebianConf.Preload

/-- A call of the list, as a program. -/
def perform : SysLinux.Call → Prog Unit
  | .launch wait argv nofork => do
    let _ ← launch wait (argv.map ascii) nofork
  | .printf text => printf (ascii text)
  | .setenv name value => setenv (ascii name) (ascii value)
  | .schedulerStart n => start n

def performAll : List SysLinux.Call → Prog Unit
  | [] => pure ()
  | c :: calls => do
    perform c
    performAll calls

/-- What `main` opens and reads before it splits: `fd`, and the bytes of `/proc/cmdline`. -/
def readCmdline : Prog (Int × List UInt8) := do
  let fd ← checkNot (open_ (ascii "/proc/cmdline") oRdonly) (-1) (ascii "/proc/cmdline")
  if fd > 0 then
    let got ← sys (SysCall.read fd (255 - 1))
    close fd
    pure (fd, got.getD [])
  else pure (fd, [])

/-! ## The buffer -/

/-- Whatever the kernel has to read, there is a NUL in the buffer that is split. -/
theorem cmdline_total (fd : Int) {tstr : List UInt8} (size : tstr.length = 255)
    (file : List UInt8) : ∃ result, cmdline fd tstr file = some result := by
  by_cases opened : 0 < fd
  · have cleared : store tstr 0 0 = some (tstr.set 0 0) := if_pos (by omega)
    have ended : ∃ body more, cmdline fd tstr file = split (body ++ 0 :: more) := by
      rw [cmdline, if_pos opened]
      simp only [cleared, Option.bind_eq_bind, Option.bind_some]
      rcases List.eq_nil_or_concat (file.take (255 - 1)) with empty | ⟨body, last, read⟩
      · refine ⟨[], tstr.tail, ?_⟩
        cases tstr with
        | nil => cases size
        | cons b rest =>
          rw [empty]
          rfl
      · rw [List.concat_eq_append] at read
        rw [read]
        refine ⟨body, (tstr.set 0 0).drop (body ++ [last]).length, ?_⟩
        rw [if_pos (by simp), store, if_pos (by simp)]
        simp
    obtain ⟨body, more, buffer⟩ := ended
    obtain ⟨_, _, _, _, splits, _⟩ := split_buffer body more
    exact ⟨_, buffer.trans splits⟩
  · exact ⟨_, by rw [cmdline, if_neg opened]⟩

/-- The words are split from what has been read. -/
theorem cmdlineWords_eq {tstr : List UInt8} {result : Int → List UInt8 → List UInt8 × List Nat}
    (found : ∀ fd file, cmdline fd tstr file = some (result fd file)) :
    cmdlineWords tstr = readCmdline >>= fun got =>
      pure ((result got.1 got.2).2.map (cstr (result got.1 got.2).1)) := by
  unfold cmdlineWords readCmdline
  rw [Program.seq_assoc]
  refine congrArg (_ >>= ·) (funext fun fd => ?_)
  by_cases opened : fd > 0
  · rw [if_pos opened, if_pos opened]
    refine congrArg (Program.ask _) (funext fun (got : Option (List UInt8)) =>
      congrArg (Program.ask _) (funext fun _ => ?_))
    dsimp only [Program.bind]
    rw [found]
    rfl
  · have unread : cmdline fd tstr [] = some (tstr, []) := by
      rw [cmdline, if_neg opened]
    have nothing : result fd [] = (tstr, []) := Option.some.inj ((found fd []).symm.trans unread)
    rw [if_neg opened, if_neg opened]
    show _ = (pure ((result fd []).2.map (cstr (result fd []).1)) : Prog (List CStr))
    rw [nothing]
    rfl

/-! ## The two levels -/

/-- Nothing comes after `exit`. -/
theorem exit_seq {α β : Type} (status : Int) (f : α → Prog β) :
    ((exit status : Prog α) >>= f) = exit status :=
  congrArg (Program.ask (SysCall.exit status)) (funext fun r => r.elim)

/-- Executed without a fork, `init` takes the place of the program. -/
theorem init_seq {α : Type} (f : Int → Prog α) :
    (executeArg [ascii initApp] false false >>= f) =
      execv [ascii initApp] >>= fun _ => exit 1 :=
  congrArg (Program.ask (SysCall.execv [ascii initApp])) (funext fun _ => exit_seq 1 f)

theorem performAll_cons {α : Type} (c : SysLinux.Call) (calls : List SysLinux.Call)
    (f : Unit → Prog α) : (performAll (c :: calls) >>= f) =
      perform c >>= fun _ => performAll calls >>= f :=
  Program.seq_assoc (perform c) (fun _ => performAll calls) f

theorem perform_launch {α : Type} (wait : Bool) (argv : List String) (nofork : Bool)
    (f : Unit → Prog α) : (perform (.launch wait argv nofork) >>= f) =
      launch wait (argv.map ascii) nofork >>= fun _ => f () :=
  Program.seq_assoc (launch wait (argv.map ascii) nofork) (fun _ => pure ()) f

theorem perform_init {α : Type} (f : Unit → Prog α) :
    (perform execInit >>= f) = execv [ascii initApp] >>= fun _ => exit 1 :=
  (perform_launch false [initApp] true f).trans (init_seq fun _ => f ())

/-- What `main` does once it has the options is to perform the calls that they lead to. -/
theorem boot_performed (options : Options) :
    (startOptions options >>= fun _ => setenv (ascii "CINIT") (ascii "1") >>= fun _ =>
      start 5 >>= fun _ => executeArg [ascii initApp] false false >>= fun _ =>
        (exit 0 : Prog Unit)) =
      performAll (boot options).calls >>= fun _ => exit 0 := by
  obtain ⟨bootchartd, single⟩ := options
  cases single with
  | true =>
    have calls : (boot ⟨bootchartd, true⟩).calls = [execInit] := rfl
    rw [calls, performAll_cons, perform_init, startOptions, Program.seq_assoc]
    exact init_seq _
  | false =>
    have scripts : (setenv (ascii "CINIT") (ascii "1") >>= fun _ => start 5 >>= fun _ =>
        executeArg [ascii initApp] false false >>= fun _ => (exit 0 : Prog Unit)) =
        performAll [.setenv "CINIT" "1", startScheduler, execInit] >>= fun _ => exit 0 := by
      simp only [performAll_cons, perform_init, init_seq]
      rfl
    rw [scripts]
    cases bootchartd with
    | true =>
      have calls : (boot ⟨true, false⟩).calls =
          startCollector :: [.setenv "CINIT" "1", startScheduler, execInit] := rfl
      have collector : startOptions ⟨true, false⟩ = perform startCollector := rfl
      rw [calls, collector]
      exact (performAll_cons _ _ _).symm
    | false => rfl

/-- As process 1, whatever the buffer `tstr` holds at first and whatever is on the kernel command
line, `main` mounts `/proc`, reads, and performs the calls that what it has read leads to. -/
theorem mainInit_performs {tstr : List UInt8} (size : tstr.length = 255) :
    ∃ calls : Int → List UInt8 → List SysLinux.Call,
      (∀ fd file, SysLinux.main fd tstr file = some (calls fd file)) ∧
      mainInit tstr = (do
        reopenStdout
        mountProcfs
        let (fd, file) ← readCmdline
        performAll (calls fd file)
        exit 0) := by
  choose result found using fun fd file => cmdline_total fd size file
  refine ⟨fun fd file => (boot (readOptions {} ((result fd file).2.map
    (cstr (result fd file).1)))).calls, fun fd file => by rw [SysLinux.main, found]; rfl, ?_⟩
  unfold mainInit afterProcfs
  rw [cmdlineWords_eq found]
  refine congrArg (_ >>= ·) (funext fun _ => congrArg (_ >>= ·) (funext fun _ => ?_))
  rw [Program.seq_assoc]
  exact congrArg (_ >>= ·) (funext fun got => boot_performed _)

end DebianConf.Boot
