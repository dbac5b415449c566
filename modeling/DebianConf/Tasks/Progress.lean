import DebianConf.Lib.Closure
import DebianConf.Tasks.Safety

/-!
# Progress of the scheduler

When every thread that is left sleeps, the last one to act has scanned and found nothing
ready. So the entries done by then are the least set closed under the dependencies, whatever
the schedule was, and in an acyclic table with all parents present this cannot happen: some
thread, or `start` itself, can always go on.
-/

namespace DebianConf.Tasks

open TaskId DebianConf.Lib Relation

section
variable {ID : Type} [DecidableEq ID] [TaskId ID] {T : Table ID}

/-- Every thread has been created and is over or sleeps with no wake-up pending. -/
def State.AtRest (s : State T.tasks) : Prop :=
  s.threadMax = 0 ∧ ∀ th ∈ s.threads, th.isAsleep = true ∨ th = .exited

/-- When some thread sleeps and the others sleep or are over, nothing is ready but something
waits. -/
def Settled (s : State T.tasks) : Prop :=
  (∃ th ∈ s.threads, th.isAsleep = true) →
    (∀ th ∈ s.threads, th.isAsleep = true ∨ th = .exited) →
    (∀ i : T.Ptr, ¬ Ready s.shared.status (entry T.tasks i)) ∧
      ∃ i : T.Ptr, T.statusOf s.shared i = .waiting

/-- While a thread sleeps, some entry is not done. -/
def Wanted (s : State T.tasks) : Prop :=
  (∃ th ∈ s.threads, th.isAsleep = true) → ∃ i : T.Ptr, T.statusOf s.shared i ≠ .done

/-- An entry that has been started is attainable. -/
def Sound (s : State T.tasks) : Prop :=
  ∀ i : T.Ptr, T.statusOf s.shared i = .running ∨ T.statusOf s.shared i = .done →
    Attainable T.DependsOn T.Blocked i

theorem wake_not_asleep {n : Nat} (threads : List (Thread n)) :
    ¬ ∃ th ∈ threads.map Thread.wake, th.isAsleep = true := by
  intro given
  rcases given with ⟨th, member, asleep⟩
  obtain ⟨th', _, rfl⟩ := List.mem_map.mp member
  cases th' <;> cases asleep

theorem asleep_of_set {n : Nat} {threads : List (Thread n)} {t : Nat} {th : Thread n}
    (up : th.isAsleep = false) (sleeper : ∃ th' ∈ threads.set t th, th'.isAsleep = true) :
    ∃ th' ∈ threads, th'.isAsleep = true := by
  obtain ⟨th', member, asleep⟩ := sleeper
  rcases List.mem_or_eq_of_mem_set member with before | rfl
  · exact ⟨th', before, asleep⟩
  · rw [up] at asleep
    cases asleep

theorem asleep_of_created {n : Nat} {threads : List (Thread n)}
    (sleeper : ∃ th ∈ threads ++ [.enter none], th.isAsleep = true) :
    ∃ th ∈ threads, th.isAsleep = true := by
  obtain ⟨th, member, asleep⟩ := sleeper
  rcases List.mem_append.mp member with before | new
  · exact ⟨th, before, asleep⟩
  · rw [List.mem_singleton.mp new] at asleep
    cases asleep

theorem mem_set_self {n : Nat} {threads : List (Thread n)} {t : Nat} {th : Thread n}
    (at_t : threads[t]? = some th) (th' : Thread n) : th' ∈ threads.set t th' :=
  List.mem_set (List.getElem?_eq_some_iff.mp at_t).1 _

section
variable {s s' : State T.tasks} {e : Event T.tasks.length}

/-- A thread that neither sleeps nor is over is left after every step but two. -/
theorem Settled.step (settled : Settled s) (step : Step s e s') : Settled s' := by
  have awake : ∀ {threads : List (Thread T.tasks.length)} (th : Thread T.tasks.length),
      th ∈ threads → th.isAsleep = false → th ≠ .exited →
      ¬ ∀ th ∈ threads, th.isAsleep = true ∨ th = .exited := by
    intro threads th member up alive all
    rcases all th member with asleep | ended
    · rw [up] at asleep
      cases asleep
    · exact alive ended
  intro sleeper all
  cases step with
  | create _ => exact absurd all (awake (.enter none) (by simp) rfl (by simp))
  | @pick t th sh childCount it woken threads at_t _ _ wakes =>
    have there : threads[t]? = some (.picked it) := by
      refine wakeUp_getElem? wakes ?_ rfl
      rw [List.getElem?_set_self (List.getElem?_eq_some_iff.mp at_t).1]
    exact absurd all (awake _ (List.mem_of_getElem? there) rfl (by simp))
  | sleep _ _ unready waits => exact ⟨unready, waits⟩
  | finish _ _ _ => exact absurd sleeper (wake_not_asleep _)
  | call at_t => exact absurd all (awake _ (mem_set_self at_t _) rfl (by simp))
  | ret at_t => exact absurd all (awake _ (mem_set_self at_t _) rfl (by simp))
  | spurious at_t => exact absurd all (awake _ (mem_set_self at_t _) rfl (by simp))
  | join _ _ => exact settled sleeper all

theorem Wanted.step (wanted : Wanted s) (step : Step s e s') : Wanted s' := by
  intro sleeper
  cases step with
  | create _ => exact wanted (asleep_of_created sleeper)
  | @pick t th sh childCount it woken threads _ _ _ _ =>
    refine ⟨it, ?_⟩
    show T.statusOf (sh.start it) it ≠ .done
    simp [start_statusOf]
  | sleep _ _ _ waits =>
    obtain ⟨i, waiting⟩ := waits
    exact ⟨i, by simp [waiting]⟩
  | finish _ _ _ => exact absurd sleeper (wake_not_asleep _)
  | call _ => exact wanted (asleep_of_set rfl sleeper)
  | ret _ => exact wanted (asleep_of_set rfl sleeper)
  | spurious _ => exact wanted (asleep_of_set rfl sleeper)
  | join _ _ => exact wanted sleeper

theorem Sound.step (sound : Sound s) (inv : Inv s) (step : Step s e s') : Sound s' := by
  intro i begun
  rcases inv.statusMoves step i with same | ⟨waiting, running⟩ | ⟨running, _⟩
  · exact sound i (same ▸ begun)
  · obtain ⟨free, finished⟩ := T.parentsSatisfied_iff.mp (inv.started step waiting running)
    refine .intro i free fun j depends => sound j ?_
    have after : T.statusOf s'.shared j = .done := finished j depends
    rcases inv.statusMoves step j with same | ⟨_, began⟩ | ⟨ran, _⟩
    · exact Or.inr (same ▸ after)
    · rw [after] at began
      cases began
    · exact Or.inl ran
  · exact sound i (Or.inl running)

end

/-- Where every thread of a run can be. -/
structure Quiet (s : State T.tasks) : Prop where
  inv : Inv s
  settled : Settled s
  wanted : Wanted s
  sound : Sound s

theorem Reachable.quiet {n : Nat} {s : State T.tasks} (reached : T.Reachable n s) : Quiet s := by
  refine reached.invariant Quiet ⟨inv_init n, ?_, ?_, ?_⟩ ?_
  · intro given
    rcases given with ⟨th, member, _⟩
    cases member
  · intro given
    rcases given with ⟨th, member, _⟩
    cases member
  · intro i begun
    simp [State.init, construct_statusOf] at begun
  · intro s e s' quiet fired
    have step := quiet.inv.step fired
    exact ⟨quiet.inv.preserved step, quiet.settled.step step, quiet.wanted.step step,
      quiet.sound.step quiet.inv step⟩

/-! ## States at rest -/

section
variable {n : Nat} {log : List (Event T.tasks.length)} {s : State T.tasks}

theorem Inv.not_running (inv : Inv s)
    (idle : ∀ th ∈ s.threads, th.isAsleep = true ∨ th = .exited) (i : T.Ptr) :
    T.statusOf s.shared i ≠ .running := by
  intro running
  have held := inv.held i
  rw [if_pos running] at held
  obtain ⟨th, member, holds⟩ := List.countP_pos_iff.mp (by rw [held]; exact Nat.one_pos)
  rcases idle th member with asleep | rfl
  · cases th with
    | asleep childCount => cases holds
    | _ => cases asleep
  · cases holds

/-- The done entries are closed under the dependencies when nothing is ready or running. -/
theorem Inv.closed (inv : Inv s) (unready : ∀ i : T.Ptr, ¬ Ready s.shared.status (entry T.tasks i))
    (not_running : ∀ i : T.Ptr, T.statusOf s.shared i ≠ .running) :
    ClosedUnder T.DependsOn T.Blocked (T.doneSet s.shared) := by
  intro i free finished
  have satisfied := T.parentsSatisfied_iff.mpr ⟨free, finished⟩
  cases status : T.statusOf s.shared i with
  | done => exact status
  | running => exact absurd status (not_running i)
  | disable => exact absurd status (inv.shared.enabled i)
  | waiting => exact absurd ((inv.shared.ready_iff i).mpr ⟨status, satisfied⟩) (unready i)

/-- At rest nothing is ready. -/
theorem AtRest.unready (some_thread : 1 ≤ n) (run : T.Run n log s) (rest : s.AtRest)
    (i : T.Ptr) : ¬ Ready s.shared.status (entry T.tasks i) := by
  by_cases sleeper : ∃ th ∈ s.threads, th.isAsleep = true
  · exact ((Reachable.quiet ⟨log, run⟩).settled sleeper rest.2).1 i
  · have ended : ∀ th ∈ s.threads, th = .exited := by
      intro th member
      rcases rest.2 th member with asleep | ended
      · exact absurd ⟨th, member, asleep⟩ sleeper
      · exact ended
    intro ready
    have finished := (Run.history run).all_done some_thread rest.1 ended i
    rw [Table.statusOf, ready.1] at finished
    cases finished

end

/-! ## Independence of the schedule -/

section
variable {n : Nat} {log : List (Event T.tasks.length)} {s : State T.tasks}

omit [DecidableEq ID] in
theorem closedSets_eq : {S : Set T.Ptr | ∀ i, T.ParentsSatisfied S i → i ∈ S} =
    {S | ClosedUnder T.DependsOn T.Blocked S} := by
  ext S
  simp only [Set.mem_ofPred_eq, ClosedUnder, T.parentsSatisfied_iff, and_imp]

/-- At rest the done entries are the attainable ones. -/
theorem AtRest.doneSet_eq (some_thread : 1 ≤ n) (run : T.Run n log s) (rest : s.AtRest) :
    T.doneSet s.shared = {i | Attainable T.DependsOn T.Blocked i} := by
  have quiet := Reachable.quiet ⟨log, run⟩
  have closed := quiet.inv.closed (AtRest.unready some_thread run rest)
    (quiet.inv.not_running rest.2)
  exact (isLeast_of_closed closed fun i finished => quiet.sound i (Or.inr finished)).unique
    attainable_isLeast

theorem AtRest.calls (run : T.Run n log s) (rest : s.AtRest) (i : T.Ptr) :
    log.countP (Event.isCall i) = if T.statusOf s.shared i = .done then 1 else 0 := by
  have history := Run.history run
  have bound := List.countP_mono_left (l := s.threads) fun th _ => hasCalled_holds i th
  rw [history.inv.held i, if_neg (history.inv.not_running rest.2 i)] at bound
  rw [history.calls i]
  omega

/-- What has run when every thread is over or sleeps for good does not depend on the schedule
or on the number of threads: it is the least set that has every entry whose parents it
satisfies, and the entries left waiting are those that lead to a cycle or to a parent that
names nothing. -/
theorem schedule_independent (some_thread : 1 ≤ n) (run : T.Run n log s) (rest : s.AtRest) :
    IsLeast {S : Set T.Ptr | ∀ i, T.ParentsSatisfied S i → i ∈ S} (T.doneSet s.shared) ∧
    (∀ i, i ∈ T.doneSet s.shared ↔ ∃ t, .call t i ∈ log) ∧
    (∀ m log' s', 1 ≤ m → T.Run m log' s' → s'.AtRest →
      T.doneSet s'.shared = T.doneSet s.shared ∧
        ∀ i, (∃ t, .call t i ∈ log') ↔ ∃ t, .call t i ∈ log) ∧
    ∀ i, T.statusOf s.shared i = .waiting ↔
      ∃ j, ReflTransGen T.DependsOn i j ∧ (T.Blocked j ∨ TransGen T.DependsOn j j) := by
  have called : ∀ {m : Nat} {log' : List (Event T.tasks.length)} {s' : State T.tasks},
      T.Run m log' s' → s'.AtRest → ∀ i, i ∈ T.doneSet s'.shared ↔ ∃ t, .call t i ∈ log' := by
    intro m log' s' run' rest' i
    have count := AtRest.calls run' rest' i
    constructor
    · intro finished
      rw [if_pos (show T.statusOf s'.shared i = .done from finished)] at count
      obtain ⟨e, member, isCall⟩ := List.countP_pos_iff.mp (by rw [count]; exact Nat.one_pos)
      cases e with
      | call t j =>
        obtain rfl : j = i := by simpa [Event.isCall] using isCall
        exact ⟨t, member⟩
      | _ => cases isCall
    · intro given
      rcases given with ⟨t, member⟩
      by_contra unfinished
      rw [if_neg (show ¬ T.statusOf s'.shared i = .done from unfinished)] at count
      exact List.countP_eq_zero.mp count _ member (by simp [Event.isCall])
  have same := AtRest.doneSet_eq some_thread run rest
  refine ⟨?_, called run rest, ?_, ?_⟩
  · rw [closedSets_eq, same]
    exact attainable_isLeast
  · intro m log' s' some_thread' run' rest'
    have equal := (AtRest.doneSet_eq some_thread' run' rest').trans same.symm
    exact ⟨equal, fun i => by rw [← called run' rest' i, equal, called run rest i]⟩
  · intro i
    have quiet := Reachable.quiet ⟨log, run⟩
    rw [← not_attainable_iff]
    have member : i ∈ T.doneSet s.shared ↔ Attainable T.DependsOn T.Blocked i := by
      rw [same]
      rfl
    rw [← member]
    constructor
    · intro waiting finished
      rw [show T.statusOf s.shared i = .done from finished] at waiting
      cases waiting
    · intro unfinished
      cases status : T.statusOf s.shared i with
      | waiting => rfl
      | done => exact absurd status unfinished
      | running => exact absurd status (quiet.inv.not_running rest.2 i)
      | disable => exact absurd status (quiet.inv.shared.enabled i)

end

/-- The boot program with five threads at rest: everything attainable has run. -/
theorem schedule_independent_boot : ∃ s, bootTable.Run 5 bootPoolLog s ∧ s.AtRest ∧
    IsLeast {S : Set bootTable.Ptr | ∀ i, bootTable.ParentsSatisfied S i → i ∈ S}
      (bootTable.doneSet s.shared) := by
  obtain ⟨s, run, rest⟩ := run_of_replay next (State.init bootTable.tasks 5)
    bootPoolLog (fun s => s.threadMax = 0 ∧ ∀ th ∈ s.threads, th.isAsleep = true ∨ th = .exited)
    (by decide +kernel)
  exact ⟨s, run, rest, (schedule_independent (by decide) run rest).1⟩

/-! ## No deadlock -/

section
variable {n : Nat} {s : State T.tasks}

/-- A wake-up can always be delivered. -/
theorem wakeUp_enabled {m : Nat} (threads : List (Thread m)) (notification : Notify) :
    ∃ woken threads', wakeUp threads woken notification = some threads' := by
  cases notification with
  | nobody => exact ⟨none, threads, by simp [wakeUp]⟩
  | all => exact ⟨none, threads.map Thread.wake, by simp [wakeUp]⟩
  | one =>
    by_cases sleeper : threads.any Thread.isAsleep = true
    · obtain ⟨th, member, asleep⟩ := List.any_eq_true.mp sleeper
      obtain ⟨k, at_k⟩ := List.mem_iff_getElem?.mp member
      cases th with
      | asleep c => exact ⟨some k, threads.set k (.woken c), by simp [wakeUp, at_k]⟩
      | _ => cases asleep
    · exact ⟨none, threads, by simp [wakeUp, sleeper]⟩

/-- A section of `peekTask` can always be carried out by a thread about to take the mutex. -/
theorem peek_fires {t : Nat} {th : Thread T.tasks.length} (at_t : s.threads[t]? = some th)
    {sh : Shared ID} {childCount : Nat} (lock : th.lock T.tasks s.shared = some (sh, childCount)) :
    ∃ out woken s', next s (.peek t out woken) = some s' := by
  rcases wakeUp_enabled
    (s.threads.set t ((round T.tasks sh childCount).2.1.thread childCount))
    (round T.tasks sh childCount).2.2 with ⟨woken, threads, woke⟩
  refine ⟨(round T.tasks sh childCount).2.1, woken,
    { s with shared := (round T.tasks sh childCount).1, threads := threads }, ?_⟩
  simp [next, at_t, lock, woke, guard, pure]

theorem peek_enabled {t : Nat} {th : Thread T.tasks.length} (at_t : s.threads[t]? = some th)
    {sh : Shared ID} {childCount : Nat} (lock : th.lock T.tasks s.shared = some (sh, childCount)) :
    ∃ e s', e.isSpurious = false ∧ next s e = some s' := by
  rcases peek_fires at_t lock with ⟨out, woken, s', fired⟩
  exact ⟨.peek t out woken, s', rfl, fired⟩

/-- A thread that neither sleeps nor is over can go on. -/
theorem thread_enabled {t : Nat} {th : Thread T.tasks.length} (at_t : s.threads[t]? = some th)
    (up : th.isAsleep ≠ true) (alive : th ≠ .exited) :
    ∃ e s', e.isSpurious = false ∧ next s e = some s' := by
  cases th with
  | enter it =>
    cases it with
    | none => exact peek_enabled at_t (rfl : _ = some (s.shared, 0))
    | some it => exact peek_enabled at_t (rfl : _ = some (complete T.tasks s.shared it))
  | woken c => exact peek_enabled at_t (rfl : _ = some (s.shared, c))
  | picked it => exact ⟨.call t it, _, rfl, by simp only [next]; rw [if_pos at_t]⟩
  | inside it => exact ⟨.ret t it, _, rfl, by simp only [next]; rw [if_pos at_t]⟩
  | asleep c => exact absurd rfl up
  | exited => exact absurd rfl alive

/-- When all threads are over, `start` can join the next one or has returned. -/
theorem Inv.join_enabled (inv : Inv s) (unreturned : ¬ s.Returned) (left : s.threadMax = 0)
    (ended : ∀ th ∈ s.threads, th = .exited) :
    ∃ e s', e.isSpurious = false ∧ next s e = some s' := by
  have inside : s.joined < s.threads.length := by
    rcases Nat.lt_trichotomy s.joined s.threads.length with below | same | above
    · exact below
    · exact absurd ⟨left, same⟩ unreturned
    · have beyond := inv.joined s.threads.length above
      simp at beyond
  have exited : s.threads[s.joined]? = some .exited := by
    rw [List.getElem?_eq_getElem inside, ended _ (List.getElem_mem inside)]
  exact ⟨.join, _, rfl, by simp only [next]; rw [if_pos ⟨left, exited⟩]⟩

/-- As long as `start` has not returned, it or one of its threads can go on, unless all the
threads that are left sleep. -/
theorem Inv.enabled (inv : Inv s) (unreturned : ¬ s.Returned)
    (awake : ¬ ((∃ th ∈ s.threads, th.isAsleep = true) ∧
      ∀ th ∈ s.threads, th.isAsleep = true ∨ th = .exited)) :
    ∃ e s', e.isSpurious = false ∧ next s e = some s' := by
  cases left : s.threadMax with
  | succ k =>
    exact ⟨.create, { s with threadMax := k, threads := s.threads ++ [.enter none] }, rfl,
      by simp [next, left]⟩
  | zero =>
    by_cases idle : ∀ th ∈ s.threads, th.isAsleep = true ∨ th = .exited
    · -- nobody sleeps, so all threads are over
      apply inv.join_enabled unreturned left
      intro th member
      rcases idle th member with asleep | ended
      · exact absurd ⟨⟨th, member, asleep⟩, idle⟩ awake
      · exact ended
    · simp only [not_forall, not_or] at idle
      obtain ⟨th, member, up, alive⟩ := idle
      obtain ⟨t, at_t⟩ := List.mem_iff_getElem?.mp member
      exact thread_enabled at_t up alive

/-- Once everything is done, the only outcome of a section of `peekTask` is `nullptr`. -/
theorem Inv.null_of_done (inv : Inv s) (finished : ∀ i : T.Ptr, T.statusOf s.shared i = .done)
    {t : Nat} {out : Outcome T.tasks.length} {woken : Option Nat} {s' : State T.tasks}
    (fired : next s (.peek t out woken) = some s') : out = .null := by
  have locked : ∀ {th : Thread T.tasks.length} {sh : Shared ID} {childCount : Nat},
      s.threads[t]? = some th → th.lock T.tasks s.shared = some (sh, childCount) →
      ∀ i, T.statusOf sh i ≠ .waiting := by
    intro th sh childCount at_t lock i
    rcases inv.lock_statusOf at_t lock i with same | ⟨_, same⟩
    · rw [same, finished i]
      simp
    · rw [same]
      simp
  cases inv.step fired with
  | pick at_t lock ready _ => exact absurd ready.1 (locked at_t lock _)
  | sleep at_t lock _ waits =>
    obtain ⟨i, waiting⟩ := waits
    exact absurd waiting (locked at_t lock i)
  | finish _ _ _ => rfl

/-- No deadlock: in an acyclic table whose parents all name something, the threads that are
left never all sleep; once everything is done nobody sleeps any more and everybody gets
`nullptr`; and until `start` returns, something other than a spurious wake-up can happen. -/
theorem no_deadlock (acyclic : T.Acyclic) (present : ∀ i, ¬ T.Blocked i)
    (reached : T.Reachable n s) :
    ¬ ((∃ th ∈ s.threads, th.isAsleep = true) ∧
      ∀ th ∈ s.threads, th.isAsleep = true ∨ th = .exited) ∧
    ((∀ i, T.statusOf s.shared i = .done) →
      (∀ th ∈ s.threads, th.isAsleep = false) ∧
      ∀ t out woken s', next s (.peek t out woken) = some s' → out = .null) ∧
    (¬ s.Returned → ∃ e s', e.isSpurious = false ∧ next s e = some s') := by
  have quiet := Reachable.quiet reached
  have awake : ¬ ((∃ th ∈ s.threads, th.isAsleep = true) ∧
      ∀ th ∈ s.threads, th.isAsleep = true ∨ th = .exited) := by
    intro given
    rcases given with ⟨sleeper, idle⟩
    obtain ⟨unready, i, waiting⟩ := quiet.settled sleeper idle
    have closed := quiet.inv.closed unready (quiet.inv.not_running idle)
    have finished : T.statusOf s.shared i = .done :=
      attainable_isLeast.2 closed (attainable_of_acyclic acyclic present i)
    rw [waiting] at finished
    cases finished
  refine ⟨awake, fun finished => ⟨fun th member => ?_, ?_⟩,
    fun unreturned => quiet.inv.enabled unreturned awake⟩
  · cases up : th.isAsleep with
    | false => rfl
    | true =>
      obtain ⟨i, unfinished⟩ := quiet.wanted ⟨th, member, up⟩
      exact absurd (finished i) unfinished
  · exact fun t out woken s' fired => quiet.inv.null_of_done finished fired

end

end

/-- The boot program with nine threads: eight have picked a task, the ninth sleeps. -/
theorem no_deadlock_boot : ∃ s, bootTable.Run 9 bootSleepLog s ∧
    (∃ th ∈ s.threads, th.isAsleep = true) ∧
    ¬ ((∃ th ∈ s.threads, th.isAsleep = true) ∧
      ∀ th ∈ s.threads, th.isAsleep = true ∨ th = .exited) ∧
    ∃ e s', e.isSpurious = false ∧ next s e = some s' := by
  obtain ⟨s, run, sleeper, unreturned⟩ := run_of_replay next
    (State.init bootTable.tasks 9) bootSleepLog
    (fun s => (∃ th ∈ s.threads, th.isAsleep = true) ∧
      ¬ (s.threadMax = 0 ∧ s.joined = s.threads.length))
    (by decide +kernel)
  have facts := no_deadlock bootTable_acyclic bootTable_present ⟨_, run⟩
  exact ⟨s, run, sleeper, facts.1, facts.2.2 unreturned⟩

end DebianConf.Tasks
