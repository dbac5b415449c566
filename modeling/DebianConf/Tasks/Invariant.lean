import DebianConf.Tasks.Consistent

/-!
# The invariant of the scheduler

`Inv` ties the protected members to the threads: they are consistent, an entry is running
exactly when one thread holds it, and `start` has joined only threads that are over. `Step`
lists once what each label can do in a state with the invariant; everything proved about runs
goes through it.
-/

namespace DebianConf.Tasks

open TaskId DebianConf.Lib

/-! ## Wake-ups -/

section
variable {n : Nat}

theorem wakeUp_nobody {threads threads' : List (Thread n)} {woken : Option Nat} :
    wakeUp threads woken .nobody = some threads' ↔ woken = none ∧ threads' = threads := by
  simp only [wakeUp]
  split <;> simp_all [eq_comm]

theorem wakeUp_all {threads threads' : List (Thread n)} {woken : Option Nat} :
    wakeUp threads woken .all = some threads' ↔
      woken = none ∧ threads' = threads.map Thread.wake := by
  simp only [wakeUp]
  split <;> simp_all [eq_comm]

theorem wakeUp_one {threads threads' : List (Thread n)} {woken : Option Nat}
    (h : wakeUp threads woken .one = some threads') :
    (threads.any Thread.isAsleep = false ∧ threads' = threads) ∨
      ∃ k childCount, threads[k]? = some (.asleep childCount) ∧
        threads' = threads.set k (.woken childCount) := by
  simp only [wakeUp] at h
  split at h
  · split at h
    · cases h
    · next none_asleep => exact Or.inl ⟨by simpa using none_asleep, (Option.some.inj h).symm⟩
  · next k =>
    split at h
    · next childCount sleeping => exact Or.inr ⟨k, childCount, sleeping, (Option.some.inj h).symm⟩
    · cases h

/-- What a wake-up can change: nothing, every sleeping thread, or one of them. -/
theorem wakeUp_cases {threads threads' : List (Thread n)} {woken : Option Nat}
    {notification : Notify} (h : wakeUp threads woken notification = some threads') :
    threads' = threads ∨ threads' = threads.map Thread.wake ∨
      ∃ k childCount, threads[k]? = some (.asleep childCount) ∧
        threads' = threads.set k (.woken childCount) := by
  cases notification with
  | nobody => exact Or.inl (wakeUp_nobody.mp h).2
  | one =>
    rcases wakeUp_one h with ⟨_, same⟩ | one
    · exact Or.inl same
    · exact Or.inr (Or.inr one)
  | all => exact Or.inr (Or.inl (wakeUp_all.mp h).2)

theorem wakeUp_length {threads threads' : List (Thread n)} {woken : Option Nat}
    {notification : Notify} (h : wakeUp threads woken notification = some threads') :
    threads'.length = threads.length := by
  rcases wakeUp_cases h with rfl | rfl | ⟨k, childCount, _, rfl⟩
  · rfl
  · exact List.length_map _
  · exact List.length_set

/-- A property of threads that waking does not change is counted as before. -/
theorem wakeUp_countP {threads threads' : List (Thread n)} {woken : Option Nat}
    {notification : Notify} (h : wakeUp threads woken notification = some threads')
    (p : Thread n → Bool) (same : ∀ th, p th.wake = p th) :
    threads'.countP p = threads.countP p := by
  rcases wakeUp_cases h with rfl | rfl | ⟨k, childCount, sleeping, rfl⟩
  · rfl
  · rw [List.countP_map]
    congr 1
    funext th
    exact same th
  · have change := countP_set p sleeping (.woken childCount)
    have equal : p (.woken childCount) = p (.asleep childCount) := same (.asleep childCount)
    rw [equal] at change
    omega

/-- A thread that does not sleep is not touched by a wake-up. -/
theorem wakeUp_getElem? {threads threads' : List (Thread n)} {woken : Option Nat}
    {notification : Notify} (h : wakeUp threads woken notification = some threads')
    {k : Nat} {th : Thread n} (at_k : threads[k]? = some th) (awake : th.isAsleep = false) :
    threads'[k]? = some th := by
  rcases wakeUp_cases h with rfl | rfl | ⟨j, childCount, sleeping, rfl⟩
  · exact at_k
  · rw [List.getElem?_map, at_k]
    cases th <;> first | rfl | cases awake
  · have other : j ≠ k := by
      rintro rfl
      rw [at_k] at sleeping
      cases Option.some.inj sleeping
      cases awake
    rw [List.getElem?_set_ne other, at_k]

/-- The thread has `it` in its hands: on the way into its function, inside of it, or back
with it into `peekTask`. -/
def Thread.holds (it : Fin n) : Thread n → Bool
  | .enter (some j) => j = it
  | .picked j => j = it
  | .inside j => j = it
  | _ => false

theorem Thread.holds_wake (it : Fin n) (th : Thread n) : th.wake.holds it = th.holds it := by
  cases th <;> rfl

end

/-! ## The invariant and the steps -/

section
variable {ID : Type} [DecidableEq ID] [TaskId ID] {T : Table ID}

/-- A thread that can take the mutex completes the task it comes with, or, just created or
woken, finds the members as they are. -/
theorem Thread.lock_cases {tasks : List (TaskInfo ID)} {sh sh' : Shared ID}
    {th : Thread tasks.length} {childCount : Nat}
    (lock : th.lock tasks sh = some (sh', childCount)) :
    (∃ it, th = .enter (some it) ∧ complete tasks sh it = (sh', childCount)) ∨
      (sh' = sh ∧ (th = .enter none ∨ th = .woken childCount)) := by
  cases th with
  | enter it =>
    cases it with
    | none =>
      cases lock
      exact Or.inr ⟨rfl, Or.inl rfl⟩
    | some it => exact Or.inl ⟨it, rfl, Option.some.inj lock⟩
  | woken c =>
    cases lock
    exact Or.inr ⟨rfl, Or.inr rfl⟩
  | asleep c => cases lock
  | picked it => cases lock
  | inside it => cases lock
  | exited => cases lock

structure Inv (s : State T.tasks) : Prop where
  shared : s.shared.Consistent T
  held : ∀ i : T.Ptr, s.threads.countP (Thread.holds i) =
    if T.statusOf s.shared i = .running then 1 else 0
  joined : ∀ j < s.joined, s.threads[j]? = some .exited

/-- The thread after it has taken the mutex and, when it came with a finished task, has
completed it: as if it had just been woken. -/
def State.locked (s : State T.tasks) (t : Nat) (sh : Shared ID) (childCount : Nat) :
    State T.tasks :=
  { s with shared := sh, threads := s.threads.set t (.woken childCount) }

/-- The steps of the scheduler, with the section of `peekTask` split by its outcome. -/
inductive Step (s : State T.tasks) : Event T.tasks.length → State T.tasks → Prop
  | create {k : Nat} (left : s.threadMax = k + 1) :
      Step s .create { s with threadMax := k, threads := s.threads ++ [.enter none] }
  | pick {t : Nat} {th : Thread T.tasks.length} {sh : Shared ID} {childCount : Nat} {it : T.Ptr}
      {woken : Option Nat} {threads : List (Thread T.tasks.length)}
      (at_t : s.threads[t]? = some th) (lock : th.lock T.tasks s.shared = some (sh, childCount))
      (ready : Ready sh.status (entry T.tasks it))
      (wakes : wakeUp (s.threads.set t (.picked it)) woken (notify childCount) = some threads) :
      Step s (.peek t (.task it) woken) { s with shared := sh.start it, threads := threads }
  | sleep {t : Nat} {th : Thread T.tasks.length} {sh : Shared ID} {childCount : Nat}
      (at_t : s.threads[t]? = some th) (lock : th.lock T.tasks s.shared = some (sh, childCount))
      (unready : ∀ i : T.Ptr, ¬ Ready sh.status (entry T.tasks i))
      (waits : ∃ i : T.Ptr, T.statusOf sh i = .waiting) :
      Step s (.peek t .wait none)
        { s with shared := sh, threads := s.threads.set t (.asleep childCount) }
  | finish {t : Nat} {th : Thread T.tasks.length} {sh : Shared ID} {childCount : Nat}
      (at_t : s.threads[t]? = some th) (lock : th.lock T.tasks s.shared = some (sh, childCount))
      (ended : ∀ i : T.Ptr, T.statusOf sh i ≠ .waiting) :
      Step s (.peek t .null none)
        { s with shared := sh, threads := (s.threads.set t .exited).map Thread.wake }
  | call {t : Nat} {it : T.Ptr} (at_t : s.threads[t]? = some (.picked it)) :
      Step s (.call t it) { s with threads := s.threads.set t (.inside it) }
  | ret {t : Nat} {it : T.Ptr} (at_t : s.threads[t]? = some (.inside it)) :
      Step s (.ret t it) { s with threads := s.threads.set t (.enter (some it)) }
  | spurious {t childCount : Nat} (at_t : s.threads[t]? = some (.asleep childCount)) :
      Step s (.spurious t) { s with threads := s.threads.set t (.woken childCount) }
  | join (created : s.threadMax = 0) (ended : s.threads[s.joined]? = some .exited) :
      Step s .join { s with joined := s.joined + 1 }

theorem Inv.running_of_holds {s : State T.tasks} (inv : Inv s) {t : Nat}
    {th : Thread T.tasks.length} (at_t : s.threads[t]? = some th) (it : T.Ptr)
    (holds : th.holds it = true) : T.statusOf s.shared it = .running := by
  have positive : 0 < s.threads.countP (Thread.holds it) :=
    List.countP_pos_iff.mpr ⟨th, List.mem_of_getElem? at_t, holds⟩
  rw [inv.held it] at positive
  split at positive
  · assumption
  · omega

omit [DecidableEq ID] in
private theorem set_getElem? {s : State T.tasks} {t : Nat} {th : Thread T.tasks.length}
    (at_t : s.threads[t]? = some th) (alive : th ≠ .exited)
    (joined : ∀ j < s.joined, s.threads[j]? = some .exited) (th' : Thread T.tasks.length) :
    ∀ j < s.joined, (s.threads.set t th')[j]? = some .exited := by
  intro j below
  have ended := joined j below
  rw [List.getElem?_set_ne, ended]
  rintro rfl
  rw [at_t] at ended
  exact alive (Option.some.inj ended)

/-- Taking the mutex and completing the finished task keeps the invariant. -/
theorem Inv.lock {s : State T.tasks} (inv : Inv s) {t : Nat} {th : Thread T.tasks.length}
    (at_t : s.threads[t]? = some th) {sh : Shared ID} {childCount : Nat}
    (lock : th.lock T.tasks s.shared = some (sh, childCount)) :
    Inv (s.locked t sh childCount) := by
  have change := fun i => countP_set (Thread.holds i) at_t (.woken childCount)
  rcases Thread.lock_cases lock with ⟨it, rfl, completed⟩ | ⟨rfl, free⟩
  · have running := inv.running_of_holds at_t it (by simp [Thread.holds])
    obtain rfl : (complete T.tasks s.shared it).1 = sh := by rw [completed]
    refine ⟨inv.shared.complete (by simp [running]), fun i => ?_,
      set_getElem? at_t (by simp) inv.joined _⟩
    have counted := change i
    rw [inv.held i] at counted
    rw [State.locked, complete_statusOf]
    by_cases same : i = it
    · subst same
      simpa [Thread.holds, running] using counted
    · simpa [Thread.holds, same, Ne.symm same] using counted
  · have alive : th ≠ .exited := by
      rcases free with rfl | rfl <;> simp
    refine ⟨inv.shared, fun i => ?_, set_getElem? at_t alive inv.joined _⟩
    have free_handed : th.holds i = false := by
      rcases free with rfl | rfl <;> rfl
    have counted := change i
    rw [free_handed] at counted
    exact counted.trans (inv.held i)

/-- `Step` covers every step from a state with the invariant. -/
theorem Inv.step {s s' : State T.tasks} (inv : Inv s) {e : Event T.tasks.length}
    (fired : next s e = some s') : Step s e s' := by
  cases e with
  | create =>
    simp only [next] at fired
    split at fired
    · cases fired
    · next k left =>
      cases fired
      exact .create left
  | peek t out woken =>
    simp only [next, Option.bind_eq_bind, Option.bind_eq_some_iff, Prod.exists] at fired
    obtain ⟨th, at_t, sh, childCount, lock, rest⟩ := fired
    obtain ⟨u, guarded, threads, wakes, result⟩ := rest
    obtain rfl := Option.some.inj result
    have outcome : (round T.tasks sh childCount).2.1 = out := by
      by_contra other
      rw [guard, if_neg other] at guarded
      cases guarded
    subst outcome
    have mid : sh.Consistent T := (inv.lock at_t lock).shared
    rcases mid.round_cases childCount with
      ⟨it, ready, result⟩ | ⟨unready, waits, result⟩ | ⟨ended, result⟩
    · simp only [result, Outcome.thread] at wakes ⊢
      exact .pick at_t lock ready wakes
    · simp only [result, Outcome.thread, wakeUp_nobody] at wakes ⊢
      obtain ⟨rfl, rfl⟩ := wakes
      exact .sleep at_t lock unready waits
    · simp only [result, Outcome.thread, wakeUp_all] at wakes ⊢
      obtain ⟨rfl, rfl⟩ := wakes
      exact .finish at_t lock ended
  | call t it =>
    simp only [next] at fired
    split at fired
    · next at_t =>
      cases fired
      exact .call at_t
    · cases fired
  | ret t it =>
    simp only [next] at fired
    split at fired
    · next at_t =>
      cases fired
      exact .ret at_t
    · cases fired
  | spurious t =>
    simp only [next] at fired
    split at fired
    · next childCount at_t =>
      cases fired
      exact .spurious at_t
    · cases fired
  | join =>
    simp only [next] at fired
    split at fired
    · next both =>
      cases fired
      exact .join both.1 both.2
    · cases fired

/-! ## The protected members along a step -/

omit [DecidableEq ID] [TaskId ID] in
/-- The task that the section of `peekTask` labelled `e` marks done: the one its thread comes
with. -/
def State.completed {tasks : List (TaskInfo ID)} (s : State tasks) :
    Event tasks.length → Option (Fin tasks.length)
  | .peek t _ _ =>
    match s.threads[t]? with
    | some (.enter it) => it
    | _ => none
  | _ => none

/-- The protected members when the section of `peekTask` labelled `e` has marked its task done
and has not scanned yet. -/
def State.completion {tasks : List (TaskInfo ID)} (s : State tasks) (e : Event tasks.length) :
    Shared ID :=
  match s.completed e with
  | some it => (complete tasks s.shared it).1
  | none => s.shared

section
variable {s s' : State T.tasks} {e : Event T.tasks.length}

omit [DecidableEq ID] in
theorem completed_eq_some {it : T.Ptr} : s.completed e = some it ↔
    ∃ t out woken, e = .peek t out woken ∧ s.threads[t]? = some (.enter (some it)) := by
  constructor
  · intro h
    unfold State.completed at h
    split at h
    · next t out woken =>
      split at h
      · next there =>
        subst h
        exact ⟨t, out, woken, rfl, there⟩
      · cases h
    · cases h
  · intro given
    rcases given with ⟨t, out, woken, rfl, there⟩
    simp [State.completed, there]

theorem completion_eq {t : Nat} {th : Thread T.tasks.length} (at_t : s.threads[t]? = some th)
    {sh : Shared ID} {childCount : Nat}
    (lock : th.lock T.tasks s.shared = some (sh, childCount)) (out : Outcome T.tasks.length)
    (woken : Option Nat) : s.completion (.peek t out woken) = sh := by
  rcases Thread.lock_cases lock with ⟨it, rfl, completed⟩ | ⟨rfl, rfl | rfl⟩
  · simp [State.completion, State.completed, at_t, completed]
  · simp [State.completion, State.completed, at_t]
  · simp [State.completion, State.completed, at_t]

/-- A task that is marked done has been running. -/
theorem Inv.completed_running (inv : Inv s) {it : T.Ptr} (completes : s.completed e = some it) :
    T.statusOf s.shared it = .running := by
  obtain ⟨t, out, woken, rfl, at_t⟩ := completed_eq_some.mp completes
  exact inv.running_of_holds at_t it (by simp [Thread.holds])

/-- Until the scan the only status that changes is that of the task marked done. -/
theorem Inv.completion_statusOf (inv : Inv s) (e : Event T.tasks.length) (i : T.Ptr) :
    T.statusOf (s.completion e) i = T.statusOf s.shared i ∨
      (T.statusOf s.shared i = .running ∧ T.statusOf (s.completion e) i = .done) := by
  unfold State.completion
  cases completes : s.completed e with
  | none => exact Or.inl rfl
  | some it =>
    simp only [complete_statusOf]
    by_cases same : i = it
    · subst same
      exact Or.inr ⟨inv.completed_running completes, if_pos rfl⟩
    · exact Or.inl (if_neg same)

theorem Inv.lock_statusOf (inv : Inv s) {t : Nat} {th : Thread T.tasks.length}
    (at_t : s.threads[t]? = some th) {sh : Shared ID} {childCount : Nat}
    (lock : th.lock T.tasks s.shared = some (sh, childCount)) (i : T.Ptr) :
    T.statusOf sh i = T.statusOf s.shared i ∨
      (T.statusOf s.shared i = .running ∧ T.statusOf sh i = .done) := by
  rw [← completion_eq at_t lock .null none]
  exact inv.completion_statusOf _ i

theorem Inv.completion_consistent (inv : Inv s) (e : Event T.tasks.length) :
    (s.completion e).Consistent T := by
  unfold State.completion
  cases completes : s.completed e with
  | none => exact inv.shared
  | some it => exact inv.shared.complete (by simp [inv.completed_running completes])

/-- What a step does to the protected members: it marks a task done or not, and then starts a
ready one or none. -/
theorem Step.shared_cases (step : Step s e s') :
    s'.shared = s.completion e ∨
      ∃ it : T.Ptr, Ready (s.completion e).status (entry T.tasks it) ∧
        s'.shared = (s.completion e).start it := by
  cases step with
  | @pick t th sh childCount it woken threads at_t lock ready wakes =>
    have mid := completion_eq at_t lock (.task it) woken
    exact Or.inr ⟨it, mid.symm ▸ ready, mid.symm ▸ rfl⟩
  | sleep at_t lock _ _ => exact Or.inl (completion_eq at_t lock _ _).symm
  | finish at_t lock _ => exact Or.inl (completion_eq at_t lock _ _).symm
  | _ => exact Or.inl rfl

end

/-! ## Preservation -/

omit [DecidableEq ID] in
theorem locked_at {s : State T.tasks} {t : Nat} {th : Thread T.tasks.length}
    (at_t : s.threads[t]? = some th) (sh : Shared ID) (childCount : Nat) :
    (s.locked t sh childCount).threads[t]? = some (.woken childCount) := by
  obtain ⟨inside, _⟩ := List.getElem?_eq_some_iff.mp at_t
  simp [State.locked, inside]

omit [DecidableEq ID] in
theorem locked_set (s : State T.tasks) (t : Nat) (sh : Shared ID) (childCount : Nat)
    (th : Thread T.tasks.length) :
    (s.locked t sh childCount).threads.set t th = s.threads.set t th :=
  List.set_set _

/-- A thread that holds the mutex may start a ready entry. -/
theorem Inv.start {s : State T.tasks} (inv : Inv s) {t childCount : Nat}
    (at_t : s.threads[t]? = some (.woken childCount)) {it : T.Ptr}
    (waiting : T.statusOf s.shared it = .waiting) {threads : List (Thread T.tasks.length)}
    {woken : Option Nat} {notification : Notify}
    (wakes : wakeUp (s.threads.set t (.picked it)) woken notification = some threads) :
    Inv { s with shared := s.shared.start it, threads := threads } := by
  refine ⟨inv.shared.start waiting, fun i => ?_, fun j below => ?_⟩
  · have change := countP_set (Thread.holds i) at_t (.picked it)
    rw [wakeUp_countP wakes (Thread.holds i) (Thread.holds_wake i), start_statusOf]
    rw [inv.held i] at change
    by_cases same : i = it
    · subst same
      simpa [Thread.holds, waiting] using change
    · simpa [Thread.holds, same, Ne.symm same] using change
  · exact wakeUp_getElem? wakes (set_getElem? at_t (by simp) inv.joined _ j below) rfl

/-- A thread may move to another place as long as it holds what it held. -/
theorem Inv.move {s : State T.tasks} (inv : Inv s) {t : Nat} {th : Thread T.tasks.length}
    (at_t : s.threads[t]? = some th) (th' : Thread T.tasks.length) (alive : th ≠ .exited)
    (same : ∀ i, th'.holds i = th.holds i) :
    Inv { s with threads := s.threads.set t th' } := by
  refine ⟨inv.shared, fun i => ?_, set_getElem? at_t alive inv.joined _⟩
  have change := countP_set (Thread.holds i) at_t th'
  rw [same i, inv.held i] at change
  exact Nat.add_right_cancel change

/-- Wake-ups keep the invariant. -/
theorem Inv.wakeUp {s : State T.tasks} (inv : Inv s) {threads : List (Thread T.tasks.length)}
    {woken : Option Nat} {notification : Notify}
    (wakes : wakeUp s.threads woken notification = some threads) :
    Inv { s with threads := threads } := by
  refine ⟨inv.shared, fun i => ?_, fun j below => wakeUp_getElem? wakes (inv.joined j below) rfl⟩
  rw [wakeUp_countP wakes (Thread.holds i) (Thread.holds_wake i)]
  exact inv.held i

/-- Every step keeps the invariant. -/
theorem Inv.preserved {s s' : State T.tasks} (inv : Inv s) {e : Event T.tasks.length}
    (step : Step s e s') : Inv s' := by
  cases step with
  | create left =>
    refine ⟨inv.shared, fun i => ?_, fun j below => ?_⟩
    · simpa [Thread.holds] using inv.held i
    · have ended := inv.joined j below
      obtain ⟨inside, _⟩ := List.getElem?_eq_some_iff.mp ended
      rw [List.getElem?_append_left inside, ended]
  | pick at_t lock ready wakes =>
    have mid := inv.lock at_t lock
    exact mid.start (locked_at at_t _ _) ready.1 (by rw [locked_set]; exact wakes)
  | @sleep t th sh childCount at_t lock _ _ =>
    have mid := inv.lock at_t lock
    have moved := mid.move (locked_at at_t _ _) (.asleep childCount) (by simp) fun i => rfl
    rwa [locked_set] at moved
  | @finish t th sh childCount at_t lock _ =>
    have mid := inv.lock at_t lock
    have moved := mid.move (locked_at at_t _ _) (.exited) (by simp) fun i => rfl
    rw [locked_set] at moved
    exact moved.wakeUp (wakeUp_all.mpr ⟨rfl, rfl⟩)
  | call at_t => exact inv.move at_t _ (by simp) fun i => rfl
  | ret at_t => exact inv.move at_t _ (by simp) fun i => rfl
  | spurious at_t => exact inv.move at_t _ (by simp) fun i => rfl
  | join _ ended =>
    refine ⟨inv.shared, inv.held, fun j below => ?_⟩
    rcases Nat.lt_succ_iff_lt_or_eq.mp below with below | rfl
    · exact inv.joined j below
    · exact ended

theorem inv_init (n : Nat) : Inv (State.init T.tasks n) where
  shared := construct_consistent
  held i := by simp [State.init, construct_statusOf]
  joined j below := absurd below (Nat.not_lt_zero j)

variable (T)

/-- The runs of `start(n, …)` on the table. -/
abbrev Table.Run (n : Nat) (log : List (Event T.tasks.length)) (s : State T.tasks) : Prop :=
  Lib.Run next (State.init T.tasks n) log s

/-- The states `start(n, …)` can reach on the table. -/
abbrev Table.Reachable (n : Nat) (s : State T.tasks) : Prop :=
  Lib.Reachable next (State.init T.tasks n) s

variable {T}

theorem Reachable.inv {n : Nat} {s : State T.tasks} (reached : T.Reachable n s) : Inv s :=
  reached.invariant Inv (inv_init n) fun inv fired => inv.preserved (inv.step fired)

end

end DebianConf.Tasks
