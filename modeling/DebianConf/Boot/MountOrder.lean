import DebianConf.Boot.LedgerRuns

/-!
# Nothing is used before it is mounted

No function waits for a mount that another function makes; the table alone sees to it that the
mount comes first. In every run every call comes after the mounts that it needs.
-/

namespace DebianConf.Boot

open DebianConf.Lib DebianConf.SysLinux DebianConf.Tasks

/-- What an actor may use, what it has to mount, and what it has mounted. -/
structure Mounts where
  granted : FileSystem → Prop
  promised : List FileSystem
  made : List FileSystem

def Mounts.has (g : Mounts) (fs : FileSystem) : Prop := fs ∈ g.made ∨ g.granted fs

/-- A call needs what is granted to the caller or mounted by it. -/
abbrev mountRules : Contract SysCall SysCall.Answer where
  Ghost := Mounts
  allows g c := ∀ fs ∈ c.needs, g.has fs
  answers _ _ _ := True
  after g c _ := { g with made := c.mounts ++ g.made }

/-- More has been mounted. -/
structure Mounts.Later (g g' : Mounts) : Prop where
  granted : g'.granted = g.granted
  promised : g'.promised = g.promised
  made : g.made ⊆ g'.made

theorem Mounts.Later.refl (g : Mounts) : g.Later g := ⟨rfl, rfl, List.Subset.refl _⟩

theorem Mounts.Later.trans {g g' g'' : Mounts} (first : g.Later g') (second : g'.Later g'') :
    g.Later g'' :=
  ⟨second.granted.trans first.granted, second.promised.trans first.promised,
    List.Subset.trans first.made second.made⟩

theorem Mounts.Later.has {g g' : Mounts} (later : g.Later g') {fs : FileSystem} (has : g.has fs) :
    g'.has fs := by
  rcases has with made | granted
  · exact Or.inl (later.made made)
  · exact Or.inr (later.granted ▸ granted)

theorem Mounts.later_call (g : Mounts) (c : SysCall) (r : c.Answer) :
    g.Later (mountRules.after g c r) := ⟨rfl, rfl, List.subset_append_right _ _⟩

/-! ## What a program needs -/

/-- The program needs nothing but `F`. -/
def Needs {α : Type} (F : List FileSystem) (p : Prog α) : Prop :=
  ∀ g : Mounts, (∀ fs ∈ F, g.has fs) → p.wp mountRules (fun _ g' => g.Later g') g

section
variable {α β : Type} {F : List FileSystem}

theorem Needs.pure (a : α) : Needs F (pure a) := fun g _ => Mounts.Later.refl g

theorem Needs.bind {p : Prog α} {f : α → Prog β} (first : Needs F p) (rest : ∀ a, Needs F (f a)) :
    Needs F (p >>= f) := by
  intro g has
  apply Program.wp_then (first g has)
  intro a g' later
  apply Program.wp_mono _ (rest a g' fun fs member => later.has (has fs member))
  exact fun _ _ => later.trans

theorem needs_compositional (F : List FileSystem) : Program.Compositional (Needs F) :=
  ⟨Needs.pure, Needs.bind⟩

theorem Needs.sys {c : SysCall} (within : c.needs ⊆ F) : Needs F (sys c) := by
  intro g has
  exact Program.wp_call (fun fs member => has fs (within member)) fun r _ => g.later_call c r

theorem Needs.repeatCall {c : SysCall} {body : c.Answer → Prog Bool} (within : c.needs ⊆ F)
    (turn : ∀ r, Needs F (body r)) : Needs F (Program.repeatCall c body) := by
  intro g has
  refine Program.wp_repeatCall (fun g' => g.Later g') (Mounts.Later.refl g) ?_ ?_
  · exact fun g' later fs member => later.has (has fs (within member))
  · intro g' later r _
    have called : g.Later (mountRules.after g' c r) :=
      later.trans (g'.later_call c r)
    apply Program.wp_mono _ (turn r _ fun fs member => called.has (has fs member))
    intro again g'' after
    cases again with
    | true => exact called.trans after
    | false => exact called.trans after

theorem Needs.exit (status : Int) : Needs F (exit status : Prog α) :=
  fun _ _ => ⟨fun _ none => absurd none (List.not_mem_nil), fun r => r.elim⟩

end

theorem needs_launch (F : List FileSystem) (wait : Bool) (argv : List CStr) (nofork : Bool) :
    Needs F (launch wait argv nofork) :=
  launch_shape (needs_compositional F) (fun _ free => Needs.sys (free ▸ List.nil_subset F))
    (Needs.exit 1) wait argv nofork

/-! ## What the functions mount -/

/-- The file systems that a function mounts. -/
def provides : BootId → List FileSystem
  | .rootFs => [.root]
  | .sysFs => [.sys]
  | .devFs => [.dev]
  | .tmpFs => [.tmp]
  | .runFs => [.run]
  | _ => []

theorem wp_checked_mount (source fstype data msg : CStr) (flags : List MountFlag)
    {target : CStr} (free : (SysCall.mount source target fstype flags data).needs = [])
    (g : Mounts) :
    (checkZero (mount source target fstype flags data) msg).wp mountRules
      (fun _ g' => g.Later g' ∧
        (SysCall.mount source target fstype flags data).mounts ⊆ g'.made) g := by
  refine Program.wp_call_seq (fun fs member => ?_) fun (r : Int) _ => ?_
  · rw [free] at member
    cases member
  · have rest : Needs [] (if r ≠ (0 : Int) then perror msg else pure ()) :=
      Program.Compositional.ite (P := Needs []) (Needs.sys (List.nil_subset _)) (Needs.pure ())
    apply Program.wp_mono _ (rest _ fun fs member => by cases member)
    intro _ g' later
    refine ⟨(g.later_call (.mount source target fstype flags data) r).trans later, ?_⟩
    exact List.Subset.trans (List.subset_append_left _ _) later.made

/-- A function mounts what it provides, and for the rest it needs what it requires. -/
theorem wp_taskFnc (id : BootId) (g : Mounts)
    (has : ∀ fs ∈ requires id, fs ∉ provides id → g.has fs) :
    (taskFnc id).wp mountRules (fun _ g' => g.Later g' ∧ provides id ⊆ g'.made) g := by
  have shape : Needs (requires id) (taskFnc id) :=
    taskFnc_shape (needs_compositional _) id (fun _ _ => Needs.sys)
      (fun argv => needs_launch _ true argv false)
      fun fd => Needs.repeatCall (List.nil_subset _)
        (deferredTurn_shape (needs_compositional _) fun _ _ => Needs.sys)
  have without : provides id = [] →
      (taskFnc id).wp mountRules (fun _ g' => g.Later g' ∧ provides id ⊆ g'.made) g := by
    intro nothing
    apply Program.wp_mono _ (shape g fun fs member => has fs member (by simp [nothing]))
    intro _ g' later
    exact ⟨later, by rw [nothing]; exact List.nil_subset _⟩
  cases id with
  | rootFs => exact wp_checked_mount _ _ _ _ _ (by decide) g
  | sysFs => exact wp_checked_mount _ _ _ _ _ (by decide) g
  | tmpFs => exact wp_checked_mount _ _ _ _ _ (by decide) g
  | runFs => exact wp_checked_mount _ _ _ _ _ (by decide) g
  | devFs =>
    apply Program.wp_then (wp_checked_mount _ _ _ _ _ (by decide) g)
    rintro _ g' ⟨later, made⟩
    have rest := mountPts_shape (needs_compositional [.dev]) fun c _ => Needs.sys
    apply Program.wp_mono _ (rest g' fun fs member => Or.inl (made member))
    intro _ g'' more
    exact ⟨later.trans more, List.Subset.trans made more.made⟩
  | _ => exact without rfl

/-! ## The boot program -/

def bootId (it : bootTable.Ptr) : BootId := (entry bootTable.tasks it).id

/-- What is mounted when the function of the entry begins. -/
def Granted (it : bootTable.Ptr) (fs : FileSystem) : Prop :=
  fs = .proc ∨ ∃ j, bootTable.DependsOn it j ∧ fs ∈ provides (bootId j)

/-- The table lets every function wait for what it requires. -/
theorem requires_granted (it : bootTable.Ptr) :
    ∀ fs ∈ requires (bootId it), fs ∉ provides (bootId it) → Granted it fs := by
  revert it
  unfold Granted Table.DependsOn Table.Refers
  decide

/-- The terms of the mounts. -/
abbrev mountTerms (tstr : List UInt8) : Terms (bootSetup tstr) where
  contract := mountRules
  first _ := ⟨fun _ => False, [], []⟩
  elsewhere _ _ _ := True
  enter it _ := ⟨Granted it, provides (bootId it), []⟩
  AtRest g := g.promised ⊆ g.made
  Final _ := True

theorem mount_kept (tstr : List UInt8) : (mountTerms tstr).Kept where
  first t := List.nil_subset _
  child g := trivial
  fnc it g _ := by
    apply Program.wp_mono _ (wp_taskFnc (bootId it) ⟨Granted it, provides (bootId it), []⟩
      fun fs member absent => Or.inr (requires_granted it fs member absent))
    rintro _ g' ⟨later, made⟩
    show g'.promised ⊆ g'.made
    rw [later.promised]
    exact made
  main := by
    have stdout : Needs [] reopenStdout :=
      Needs.bind (Needs.sys (by decide)) fun _ =>
        Program.Compositional.ite (P := Needs []) (Needs.sys (List.nil_subset _)) (Needs.pure ())
    have rest : Needs [.proc] (afterProcfs tstr) :=
      afterProcfs_shape (needs_compositional _) (fun _ _ => Needs.sys) (needs_launch _)
        (Needs.sys (by decide)) (Needs.exit 0) tstr
    apply Program.wp_then (stdout _ fun fs member => by cases member)
    intro _ g later
    apply Program.wp_then (wp_checked_mount _ _ _ _ _ (by decide) g)
    rintro _ g' ⟨later', made⟩
    have proc : g'.has .proc := Or.inl (made (by decide))
    apply Program.wp_mono _ (rest g' fun fs member => ?_)
    · exact fun _ _ _ => trivial
    · rw [List.mem_singleton.mp member]
      exact proc

/-- A mount of the file system has been answered. -/
def Mounted (log : List (Label bootTable.tasks.length)) (fs : FileSystem) : Prop :=
  ∃ a c r, .sys a c r ∈ log ∧ fs ∈ c.mounts

section
variable {tstr : List UInt8} {log : List (Label bootTable.tasks.length)}
  {s s' : State (bootSetup tstr)} {b : Books (mountTerms tstr)}

theorem mount_honest : Honest (mountTerms tstr) log := by
  intro before l after _
  cases l with
  | sys a c r => exact ⟨trivial, fun _ _ _ => trivial⟩
  | sched e => trivial
  | gone a c => trivial

theorem Mounted.snoc {fs : FileSystem} (mounted : Mounted log fs)
    (l : Label bootTable.tasks.length) : Mounted (log ++ [l]) fs := by
  rcases mounted with ⟨a, c, r, member, mounts⟩
  exact ⟨a, c, r, List.mem_append_left _ member, mounts⟩

/-- What the pages say has happened. -/
structure Ordered (log : List (Label bootTable.tasks.length)) (s : State (bootSetup tstr))
    (b : Books (mountTerms tstr)) : Prop where
  entered : ∀ t it, inside s.sched.threads t = some it →
    (b.page (.thread t)).granted = Granted it ∧
      (b.page (.thread t)).promised = provides (bootId it)
  main : (b.page .main).granted = fun _ => False
  made : ∀ a, ∀ fs ∈ (b.page a).made, Mounted log fs
  returned : ∀ t it, .sched (.ret t it) ∈ log → ∀ fs ∈ provides (bootId it), Mounted log fs

theorem ordered_init : Ordered [] (State.init (bootSetup tstr)) (books (mountTerms tstr) []) where
  entered t it inside := by cases inside
  main := rfl
  made a fs member := by cases member
  returned t it member := by cases member

/-- A page that a call leaves is one from before, with the mounts of the call at most. -/
theorem page_after_call (a a' : Actor) (c : SysCall) (r : c.Answer) :
    ∃ a'', ((b.enter (mountTerms tstr) (.sys a c r)).page a').made ⊆
      c.mounts ++ (b.page a'').made := by
  by_cases same : a' = a
  · subst same
    rw [page_sys_self]
    exact ⟨a', List.Subset.refl _⟩
  · by_cases new : a' = .child b.forked
    · subst new
      rw [page_sys_child same]
      split
      · exact ⟨a, List.subset_append_right _ _⟩
      · exact ⟨_, List.subset_append_right _ _⟩
    · rw [page_sys_of_ne same new]
      exact ⟨a', List.subset_append_right _ _⟩

/-- What is granted and promised does not change with a call. -/
theorem page_keeps (a a' : Actor) (old : a'.isChild = false) (c : SysCall) (r : c.Answer) :
    ((b.enter (mountTerms tstr) (.sys a c r)).page a').granted = (b.page a').granted ∧
      ((b.enter (mountTerms tstr) (.sys a c r)).page a').promised = (b.page a').promised := by
  by_cases same : a' = a
  · subst same
    rw [page_sys_self]
    exact ⟨rfl, rfl⟩
  · rw [page_sys_of_ne same]
    · exact ⟨rfl, rfl⟩
    · rintro rfl
      cases old

theorem Ordered.step (ordered : Ordered log s b) (inv : Inv s.sched)
    {l : Label (bootSetup tstr).table.tasks.length}
    (bound : Bound (mountTerms tstr) s' (b.enter (mountTerms tstr) l)) (wired' : Wired s')
    (step : Step s l s') : Ordered (log ++ [l]) s' (b.enter (mountTerms tstr) l) := by
  have earlier : ∀ a, ∀ fs ∈ (b.page a).made, Mounted (log ++ [l]) fs :=
    fun a fs member => (ordered.made a fs member).snoc l
  have returned : ∀ t it, .sched (.ret t it) ∈ log →
      ∀ fs ∈ provides (bootId it), Mounted (log ++ [l]) fs :=
    fun t it member fs provided => (ordered.returned t it member fs provided).snoc l
  cases step with
  | @sched e sched code starting fired dispatched =>
    have moves := inside_step (inv.step fired)
    have silent : (∀ t it, e ≠ .ret t it) → ∀ t it, .sched (.ret t it) ∈ log ++ [.sched e] →
        ∀ fs ∈ provides (bootId it), Mounted (log ++ [.sched e]) fs := by
      intro other t it member
      rcases List.mem_append.mp member with member | last
      · exact returned t it member
      · exact absurd (Label.sched.inj (List.mem_singleton.mp last)).symm (other t it)
    cases e with
    | call t it =>
      have page : (b.enter (mountTerms tstr) (.sched (.call t it))).page =
          Function.update b.page (.thread t) ⟨Granted it, provides (bootId it), []⟩ := rfl
      refine ⟨fun k it' entered => ?_, ordered.main, fun a fs member => ?_, silent (by simp)⟩
      · rw [moves, enters, Function.update_apply] at entered
        rw [page]
        split at entered
        · next same =>
          subst same
          cases entered
          rw [Function.update_self]
          exact ⟨rfl, rfl⟩
        · next other =>
          rw [Function.update_of_ne fun same => other (Actor.thread.inj same)]
          exact ordered.entered k it' entered
      · rw [page] at member
        by_cases same : a = .thread t
        · subst same
          rw [Function.update_self] at member
          cases member
        · rw [Function.update_of_ne same] at member
          exact earlier a fs member
    | ret t it =>
      refine ⟨fun k it' entered => ?_, ordered.main, earlier, fun k it' member => ?_⟩
      · rw [moves, enters, Function.update_apply] at entered
        split at entered
        · cases entered
        · exact ordered.entered k it' entered
      · rcases List.mem_append.mp member with member | last
        · exact returned k it' member
        · -- the function has mounted what it promised
          cases List.mem_singleton.mp last
          have inside_it : inside s.sched.threads t = some it := by
            cases inv.step fired with
            | ret at_t => rw [inside, at_t]; rfl
          have outside : inside sched.threads t = none := by
            rw [moves, enters, Function.update_self]
          have kept : (b.page (.thread t)).promised ⊆ (b.page (.thread t)).made :=
            bound.rests ((wired'.threads t).mpr outside)
          rw [(ordered.entered t it inside_it).2] at kept
          exact fun fs provided => earlier _ fs (kept provided)
    | _ => exact ⟨fun k it' entered => ordered.entered k it' (by rwa [moves] at entered),
        ordered.main, earlier, silent (by simp)⟩
  | @sys a c r p p' admitted here answered =>
    refine ⟨fun k it entered => ?_, ?_, fun a' fs member => ?_, fun k it member => ?_⟩
    · rw [(page_keeps a (.thread k) rfl c r).1, (page_keeps a (.thread k) rfl c r).2]
      exact ordered.entered k it entered
    · rw [(page_keeps a .main rfl c r).1]
      exact ordered.main
    · rcases page_after_call a a' c r with ⟨a'', sub⟩
      rcases List.mem_append.mp (sub member) with mounts | made
      · exact ⟨a, c, r, List.mem_append_right _ (List.mem_singleton.mpr rfl), mounts⟩
      · exact earlier a'' fs made
    · rcases List.mem_append.mp member with member | last
      · exact returned k it member
      · cases List.mem_singleton.mp last
  | @gone a c replaces apart stands =>
    refine ⟨ordered.entered, ordered.main, earlier, fun k it member => ?_⟩
    rcases List.mem_append.mp member with member | last
    · exact returned k it member
    · cases List.mem_singleton.mp last

theorem Run.ordered (run : (bootSetup tstr).Run log s) :
    Ordered log s (books (mountTerms tstr) log) := by
  induction run with
  | nil => exact ordered_init
  | snoc before fired ih =>
    have after := before.snoc fired
    have bound := Run.bound (mount_kept tstr) after mount_honest
    rw [books_snoc] at bound ⊢
    exact ih.step (Reachable.inv ⟨_, Run.sched before⟩) bound (Run.wired after)
      (step_of_next fired)

/-- `main` has mounted `/proc` when a function begins. -/
theorem Run.proc_mounted (run : (bootSetup tstr).Run log s) {t : Nat}
    (here : inside s.sched.threads t ≠ none) : Mounted log .proc := by
  have starting : s.pending .main = some (.start 5) := by
    by_contra away
    exact here (Run.outside run away t)
  have ordered := Run.ordered run
  have allowed := (Run.bound (mount_kept tstr) run mount_honest).allowed starting
  rcases allowed .proc (by decide) with made | granted
  · exact ordered.made .main .proc made
  · rw [ordered.main] at granted
    cases granted

/-- In every run of the boot program, for every interleaving of its calls and every answer to
them, what `main` and the threads call comes after the mounts of what it touches, with the
exceptions of `SysCall.isEarly`. -/
theorem mount_order (run : (bootSetup tstr).Run log s) {a : Actor} (process : a.isChild = false)
    {c : SysCall} (stands : s.pending a = some c) :
    ∀ fs ∈ c.touches, Mounted log fs ∨ c.isEarly fs = true := by
  intro fs touched
  cases early : c.isEarly fs with
  | true => exact Or.inr rfl
  | false =>
    left
    have ordered := Run.ordered run
    have allowed := (Run.bound (mount_kept tstr) run mount_honest).allowed stands
    rcases allowed fs (mem_needs.mpr ⟨touched, early⟩) with made | granted
    · exact ordered.made a fs made
    · cases a with
      | main =>
        rw [ordered.main] at granted
        exact absurd granted id
      | child j => cases process
      | thread t =>
        rcases Option.bind_eq_some_iff.mp stands with ⟨p, here, _⟩
        have entered : inside s.sched.threads t ≠ none := by
          rw [ne_eq, ← (Run.wired run).threads t, here]
          simp
        rcases Option.ne_none_iff_exists'.mp entered with ⟨it, inside_it⟩
        rw [(ordered.entered t it inside_it).1] at granted
        rcases granted with rfl | ⟨j, depends, provided⟩
        · exact Run.proc_mounted run entered
        · rcases Run.dependencies run inside_it depends with ⟨t', back⟩
          exact ordered.returned t' j back fs provided

end

/-- In the boot with five threads, thread 1 opens a file on `/sys` that thread 2 has mounted. -/
theorem mount_order_uevent : ∃ s, (bootSetup (List.replicate 255 0)).Run (bootLog.take 101) s ∧
    s.pending (.thread 1) = some (.fopen (ascii "/sys/kernel/uevent_helper") (ascii "w")) ∧
    Mounted (bootLog.take 101) .sys := by
  obtain ⟨s, run, stands⟩ := run_of_replay next
    (State.init (bootSetup (List.replicate 255 0))) (bootLog.take 101)
    (fun s => s.pending (.thread 1) =
      some (.fopen (ascii "/sys/kernel/uevent_helper") (ascii "w"))) (by decide +kernel)
  exact ⟨s, run, stands, (mount_order run rfl stands .sys (by decide)).resolve_right (by decide)⟩

end DebianConf.Boot
