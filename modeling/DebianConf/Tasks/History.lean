import DebianConf.Tasks.Invariant

/-!
# What the log of a run says

The log of a run counts the calls and returns of the task functions. A done entry has been
called and has returned once; a thread that holds an entry accounts for the rest. From these
counts follow the dependency order of the scheduler and that every function runs exactly
once.
-/

namespace DebianConf.Tasks

open TaskId DebianConf.Lib

section
variable {n : Nat}

/-- A call of the function of `it`. -/
def Event.isCall (it : Fin n) : Event n → Bool
  | .call _ j => j = it
  | _ => false

/-- A return of the function of `it`. -/
def Event.isRet (it : Fin n) : Event n → Bool
  | .ret _ j => j = it
  | _ => false

/-- The thread has called the function of `it`, which is not completed yet. -/
def Thread.hasCalled (it : Fin n) : Thread n → Bool
  | .inside j => j = it
  | .enter (some j) => j = it
  | _ => false

/-- The function of `it` has returned in the thread and `it` is not completed yet. -/
def Thread.hasReturned (it : Fin n) : Thread n → Bool
  | .enter (some j) => j = it
  | _ => false

/-- The entries whose function has returned. -/
def returned (log : List (Event n)) : Set (Fin n) := {i | ∃ t, .ret t i ∈ log}

theorem mem_returned_iff (log : List (Event n)) (i : Fin n) :
    i ∈ returned log ↔ 0 < log.countP (Event.isRet i) := by
  rw [List.countP_pos_iff]
  constructor
  · intro given
    rcases given with ⟨t, member⟩
    exact ⟨_, member, by simp [Event.isRet]⟩
  · intro given
    rcases given with ⟨e, member, isRet⟩
    cases e with
    | ret t j =>
      obtain rfl : j = i := by simpa [Event.isRet] using isRet
      exact ⟨t, member⟩
    | _ => cases isRet

/-- `mark` counts threads between an event that `label` recognises and the completion of the
entry: the calls for `hasCalled`, the returns for `hasReturned`. -/
structure Tracks (mark : Fin n → Thread n → Bool) (label : Fin n → Event n → Bool) : Prop where
  free : ∀ i th, (∀ j, th ≠ .enter (some j) ∧ th ≠ .inside j) → mark i th = false
  enter : ∀ i j, mark i (.enter (some j)) = decide (j = i)
  call : ∀ i t j, label i (.call t j) = mark i (.inside j)
  ret : ∀ i t j, (mark i (.inside j)).toNat + (label i (.ret t j)).toNat = (decide (j = i)).toNat
  other : ∀ i e, (∀ t j, e ≠ .call t j ∧ e ≠ .ret t j) → label i e = false

theorem tracks_call : Tracks (n := n) Thread.hasCalled Event.isCall where
  free i th none := by
    cases th with
    | inside j => exact absurd rfl (none j).2
    | enter it =>
      cases it with
      | none => rfl
      | some j => exact absurd rfl (none j).1
    | _ => rfl
  enter _ _ := rfl
  call _ _ _ := rfl
  ret _ _ _ := rfl
  other i e none := by
    cases e with
    | call t j => exact absurd rfl (none t j).1
    | _ => rfl

theorem tracks_ret : Tracks (n := n) Thread.hasReturned Event.isRet where
  free i th none := by
    cases th with
    | enter it =>
      cases it with
      | none => rfl
      | some j => exact absurd rfl (none j).1
    | _ => rfl
  enter _ _ := rfl
  call _ _ _ := rfl
  ret i t j := by simp [Thread.hasReturned, Event.isRet]
  other i e none := by
    cases e with
    | ret t j => exact absurd rfl (none t j).2
    | _ => rfl

end

section
variable {ID : Type} [DecidableEq ID] [TaskId ID] {T : Table ID}

/-! ## Status changes -/

/-- A status stays, or moves from waiting to running or from running to done. -/
def StatusMoves (before after : TaskStatus) : Prop :=
  after = before ∨ (before = .waiting ∧ after = .running) ∨ (before = .running ∧ after = .done)

theorem Inv.statusMoves {s s' : State T.tasks} (inv : Inv s) {e : Event T.tasks.length}
    (step : Step s e s') (i : T.Ptr) :
    StatusMoves (T.statusOf s.shared i) (T.statusOf s'.shared i) := by
  have marked : StatusMoves (T.statusOf s.shared i) (T.statusOf (s.completion e) i) := by
    rcases inv.completion_statusOf e i with same | ⟨running, finished⟩
    · exact Or.inl same
    · exact Or.inr (Or.inr ⟨running, finished⟩)
  rcases step.shared_cases with same | ⟨it, ready, same⟩
  · rw [same]
    exact marked
  · rw [same, start_statusOf]
    split
    · next here =>
      subst here
      have waiting : T.statusOf (s.completion e) i = .waiting := ready.1
      rcases inv.completion_statusOf e i with same | ⟨_, finished⟩
      · exact Or.inr (Or.inl ⟨same ▸ waiting, rfl⟩)
      · rw [waiting] at finished
        cases finished
    · exact marked

/-- The entries that are done stay done. -/
theorem Inv.doneSet_mono {s s' : State T.tasks} (inv : Inv s) {e : Event T.tasks.length}
    (step : Step s e s') : T.doneSet s.shared ⊆ T.doneSet s'.shared := by
  intro i finished
  have before : T.statusOf s.shared i = .done := finished
  rcases inv.statusMoves step i with same | ⟨waiting, _⟩ | ⟨_, after⟩
  · exact same.trans before
  · rw [before] at waiting
    cases waiting
  · exact after

/-- An entry becomes running in a section of `peekTask` that finds its parents satisfied. -/
theorem Inv.started {s s' : State T.tasks} (inv : Inv s) {e : Event T.tasks.length}
    (step : Step s e s') {i : T.Ptr} (waiting : T.statusOf s.shared i = .waiting)
    (running : T.statusOf s'.shared i = .running) :
    T.ParentsSatisfied (T.doneSet s'.shared) i := by
  have still : T.statusOf (s.completion e) i = .waiting := by
    rcases inv.completion_statusOf e i with same | ⟨ran, _⟩
    · rw [same, waiting]
    · rw [waiting] at ran
      cases ran
  rcases step.shared_cases with same | ⟨it, ready, same⟩
  · rw [same, still] at running
    cases running
  · have here : i = it := by
      by_contra other
      rw [same, start_statusOf, if_neg other, still] at running
      cases running
    subst here
    have satisfied := ((inv.completion_consistent e).ready_iff i).mp ready
    apply satisfied.2.mono T
    intro j finished
    show T.statusOf s'.shared j = .done
    rw [same, start_statusOf, if_neg, finished]
    rintro rfl
    rw [show T.statusOf _ j = .done from finished] at still
    cases still

theorem StatusMoves.not_waiting {before after : TaskStatus} (moves : StatusMoves before after)
    (h : before ≠ .waiting) : after ≠ .waiting := by
  rcases moves with rfl | ⟨_, rfl⟩ | ⟨_, rfl⟩
  · exact h
  · simp
  · simp

/-! ## Parents of started entries -/

/-- Both parents of an entry that does not wait are satisfied by the done entries. -/
def Shared.ParentsDone (T : Table ID) (sh : Shared ID) : Prop :=
  ∀ i : T.Ptr, T.statusOf sh i ≠ .waiting → T.ParentsSatisfied (T.doneSet sh) i

theorem construct_parentsDone : (construct T.tasks).ParentsDone T := by
  intro i begun
  exact absurd (construct_statusOf i) begun

theorem Shared.ParentsDone.step {s s' : State T.tasks} (parents : s.shared.ParentsDone T)
    (inv : Inv s) {e : Event T.tasks.length} (step : Step s e s') : s'.shared.ParentsDone T := by
  intro i begun
  rcases inv.statusMoves step i with same | ⟨waiting, running⟩ | ⟨running, _⟩
  · exact (parents i (same ▸ begun)).mono T (inv.doneSet_mono step)
  · exact inv.started step waiting running
  · exact (parents i (by simp [running])).mono T (inv.doneSet_mono step)

theorem Reachable.parentsDone {n : Nat} {s : State T.tasks} (reached : T.Reachable n s) :
    s.shared.ParentsDone T := by
  have both : Inv s ∧ s.shared.ParentsDone T := by
    apply reached.invariant (fun s => Inv s ∧ s.shared.ParentsDone T)
      ⟨inv_init n, construct_parentsDone⟩
    intro s e s' before fired
    have step := before.1.step fired
    exact ⟨before.1.preserved step, before.2.step before.1 step⟩
  exact both.2

/-! ## Calls and returns -/

/-- The labels recognised so far are accounted for by the done entries and by the marked
threads. -/
def Accounted (mark : T.Ptr → Thread T.tasks.length → Bool)
    (label : T.Ptr → Event T.tasks.length → Bool) (log : List (Event T.tasks.length))
    (s : State T.tasks) : Prop :=
  ∀ i, log.countP (label i) =
    (if T.statusOf s.shared i = .done then 1 else 0) + s.threads.countP (mark i)

section
variable {mark : T.Ptr → Thread T.tasks.length → Bool}
  {label : T.Ptr → Event T.tasks.length → Bool} {log : List (Event T.tasks.length)}
  {s : State T.tasks}

omit [DecidableEq ID] in
theorem Tracks.wake (tracks : Tracks mark label) (i : T.Ptr) (th : Thread T.tasks.length) :
    mark i th.wake = mark i th := by
  cases th with
  | asleep c => rw [Thread.wake, tracks.free i _ (by simp), tracks.free i _ (by simp)]
  | _ => rfl

theorem Accounted.lock (tracks : Tracks mark label) (inv : Inv s)
    (accounted : Accounted mark label log s) {t : Nat} {th : Thread T.tasks.length}
    (at_t : s.threads[t]? = some th) {sh : Shared ID} {childCount : Nat}
    (lock : th.lock T.tasks s.shared = some (sh, childCount)) :
    Accounted mark label log (s.locked t sh childCount) := by
  intro i
  have change := countP_set (mark i) at_t (.woken childCount)
  rw [tracks.free i (.woken childCount) (by simp)] at change
  have total := accounted i
  show _ = (if T.statusOf sh i = .done then 1 else 0) +
    (s.threads.set t (.woken childCount)).countP (mark i)
  rcases Thread.lock_cases lock with ⟨it, rfl, completed⟩ | ⟨rfl, free⟩
  · have running := inv.running_of_holds at_t it (by simp [Thread.holds])
    obtain rfl : (complete T.tasks s.shared it).1 = sh := by rw [completed]
    rw [complete_statusOf]
    rw [tracks.enter] at change
    by_cases same : i = it
    · subst same
      simp only [running, decide_true, if_true, reduceCtorEq, if_false, Bool.false_eq_true]
        at change total ⊢
      omega
    · simp only [same, Ne.symm same, decide_false, if_false, Bool.false_eq_true] at change ⊢
      omega
  · have unmarked : mark i th = false := by
      rcases free with rfl | rfl <;> exact tracks.free i _ (by simp)
    rw [unmarked] at change
    omega

omit [DecidableEq ID] in
/-- A thread that is marked for nothing moves to where it is marked for nothing. -/
theorem Accounted.move (accounted : Accounted mark label log s) {t : Nat}
    {th : Thread T.tasks.length} (at_t : s.threads[t]? = some th) (th' : Thread T.tasks.length)
    (same : ∀ i, mark i th' = mark i th) :
    Accounted mark label log { s with threads := s.threads.set t th' } := by
  intro i
  have change := countP_set (mark i) at_t th'
  rw [same i] at change
  have total := accounted i
  show _ = (if T.statusOf s.shared i = .done then 1 else 0) + (s.threads.set t th').countP (mark i)
  omega

omit [DecidableEq ID] in
theorem Accounted.wakeUp (tracks : Tracks mark label) (accounted : Accounted mark label log s)
    {threads : List (Thread T.tasks.length)} {woken : Option Nat} {notification : Notify}
    (wakes : wakeUp s.threads woken notification = some threads) :
    Accounted mark label log { s with threads := threads } := by
  intro i
  rw [accounted i, ← wakeUp_countP wakes (mark i) (tracks.wake i)]

omit [DecidableEq ID] in
/-- A label that is not recognised leaves the account as it is. -/
theorem Accounted.unlabelled {e : Event T.tasks.length} (silent : ∀ i, label i e = false)
    (accounted : Accounted mark label log s) : Accounted mark label (log ++ [e]) s := by
  intro i
  rw [List.countP_append, List.countP_singleton, silent i]
  simpa using accounted i

theorem Accounted.step (tracks : Tracks mark label) (inv : Inv s)
    (accounted : Accounted mark label log s) {e : Event T.tasks.length} {s' : State T.tasks}
    (step : Step s e s') : Accounted mark label (log ++ [e]) s' := by
  cases step with
  | create left =>
    apply Accounted.unlabelled fun i => tracks.other i _ (by simp)
    intro i
    simpa [tracks.free i (.enter none) (by simp)] using accounted i
  | @pick t th sh childCount it woken threads at_t lock ready wakes =>
    apply Accounted.unlabelled fun i => tracks.other i _ (by simp)
    have mid := (accounted.lock tracks inv at_t lock).move (locked_at at_t _ _) (.picked it)
      fun i => by rw [tracks.free i _ (by simp), tracks.free i _ (by simp)]
    rw [locked_set] at mid
    intro i
    have total : log.countP (label i) = (if T.statusOf sh i = .done then 1 else 0) +
        threads.countP (mark i) := mid.wakeUp tracks wakes i
    have waiting : T.statusOf sh it = .waiting := ready.1
    rw [total]
    show _ = (if T.statusOf (sh.start it) i = .done then 1 else 0) + threads.countP (mark i)
    rw [start_statusOf]
    by_cases same : i = it
    · subst same
      simp [waiting]
    · simp [same]
  | @sleep t th sh childCount at_t lock _ _ =>
    apply Accounted.unlabelled fun i => tracks.other i _ (by simp)
    have mid := (accounted.lock tracks inv at_t lock).move (locked_at at_t _ _)
      (.asleep childCount) fun i => by rw [tracks.free i _ (by simp), tracks.free i _ (by simp)]
    rwa [locked_set] at mid
  | @finish t th sh childCount at_t lock _ =>
    apply Accounted.unlabelled fun i => tracks.other i _ (by simp)
    have mid := (accounted.lock tracks inv at_t lock).move (locked_at at_t _ _) .exited
      fun i => by rw [tracks.free i _ (by simp), tracks.free i _ (by simp)]
    rw [locked_set] at mid
    exact mid.wakeUp tracks (wakeUp_all.mpr ⟨rfl, rfl⟩)
  | @call t it at_t =>
    intro i
    have change := countP_set (mark i) at_t (.inside it)
    rw [tracks.free i (.picked it) (by simp)] at change
    have total := accounted i
    simp only [List.countP_append, List.countP_singleton, tracks.call i t it]
    simp only [Bool.false_eq_true, if_false] at change
    omega
  | @ret t it at_t =>
    intro i
    have change := countP_set (mark i) at_t (.enter (some it))
    rw [tracks.enter] at change
    have exchange := tracks.ret i t it
    have total := accounted i
    have as_number : ∀ b : Bool, (if b = true then 1 else 0) = b.toNat := by decide
    simp only [List.countP_append, List.countP_singleton, as_number] at change ⊢
    omega
  | spurious at_t =>
    apply Accounted.unlabelled fun i => tracks.other i _ (by simp)
    exact accounted.move at_t _
      fun i => by rw [tracks.free i _ (by simp), tracks.free i _ (by simp)]
  | join _ _ =>
    apply Accounted.unlabelled fun i => tracks.other i _ (by simp)
    exact accounted

end

/-! ## Histories -/

/-- What a run keeps about its log and the state it is in. -/
structure History (n : Nat) (log : List (Event T.tasks.length)) (s : State T.tasks) : Prop where
  inv : Inv s
  calls : Accounted Thread.hasCalled Event.isCall log s
  rets : Accounted Thread.hasReturned Event.isRet log s
  parents : ∀ i, T.statusOf s.shared i = .running ∨ T.statusOf s.shared i = .done →
    T.ParentsSatisfied (returned log) i
  created : s.threadMax + s.threads.length = n
  exits : .exited ∈ s.threads → ∃ t woken, .peek t .null woken ∈ log
  ended : (∃ t woken, .peek t .null woken ∈ log) → ∀ i, T.statusOf s.shared i ≠ .waiting

variable {n : Nat} {log : List (Event T.tasks.length)} {s : State T.tasks}

theorem returned_mono (log : List (Event n)) (e : Event n) :
    returned log ⊆ returned (log ++ [e]) :=
  fun _ ⟨t, member⟩ => ⟨t, List.mem_append_left _ member⟩

omit [DecidableEq ID] in
theorem Accounted.done_returned (rets : Accounted Thread.hasReturned Event.isRet log s) :
    T.doneSet s.shared ⊆ returned log := by
  intro i finished
  have total := rets i
  rw [if_pos (show T.statusOf s.shared i = .done from finished)] at total
  rw [mem_returned_iff]
  omega

/-- Only a `nullptr` from `peekTask` ends a thread. -/
theorem exited_mem_set {threads : List (Thread n)} {t : Nat} {th : Thread n}
    (alive : th ≠ .exited) (member : .exited ∈ threads.set t th) : .exited ∈ threads := by
  rcases List.mem_or_eq_of_mem_set member with member | same
  · exact member
  · exact absurd same.symm alive

theorem exited_mem_wakeUp {threads threads' : List (Thread n)} {woken : Option Nat}
    {notification : Notify} (wakes : wakeUp threads woken notification = some threads')
    (member : .exited ∈ threads') : .exited ∈ threads := by
  rcases wakeUp_cases wakes with rfl | rfl | ⟨k, childCount, _, rfl⟩
  · exact member
  · obtain ⟨th, member, same⟩ := List.mem_map.mp member
    cases th <;> simp [Thread.wake] at same
    exact member
  · exact exited_mem_set (by simp) member

theorem History.step (history : History n log s) {e : Event T.tasks.length} {s' : State T.tasks}
    (step : Step s e s') : History n (log ++ [e]) s' := by
  have moves := fun i => history.inv.statusMoves step i
  have rets := history.rets.step tracks_ret history.inv step
  refine
    { inv := history.inv.preserved step
      calls := history.calls.step tracks_call history.inv step
      rets := rets
      parents := ?_, created := ?_, exits := ?_, ended := ?_ }
  · intro i begun
    rcases moves i with same | ⟨waiting, running⟩ | ⟨running, _⟩
    · exact (history.parents i (same ▸ begun)).mono T (returned_mono log e)
    · exact (history.inv.started step waiting running).mono T rets.done_returned
    · exact (history.parents i (Or.inl running)).mono T (returned_mono log e)
  · have created := history.created
    cases step with
    | create left =>
      simp only [List.length_append, List.length_singleton]
      omega
    | pick at_t lock ready wakes => simpa [wakeUp_length wakes] using created
    | _ => simpa using created
  · intro member
    have known : .exited ∈ s.threads → ∃ t woken, .peek t .null woken ∈ log ++ [e] := by
      intro before
      obtain ⟨t, woken, seen⟩ := history.exits before
      exact ⟨t, woken, List.mem_append_left _ seen⟩
    cases step with
    | create left => exact known (by simpa using member)
    | pick at_t lock ready wakes =>
      exact known (exited_mem_set (by simp) (exited_mem_wakeUp wakes member))
    | sleep at_t lock _ _ => exact known (exited_mem_set (by simp) member)
    | @finish t th sh childCount at_t lock _ => exact ⟨t, none, by simp⟩
    | call at_t => exact known (exited_mem_set (by simp) member)
    | ret at_t => exact known (exited_mem_set (by simp) member)
    | spurious at_t => exact known (exited_mem_set (by simp) member)
    | join _ _ => exact known member
  · intro given i
    rcases given with ⟨t, woken, member⟩
    rcases List.mem_append.mp member with before | here
    · exact (moves i).not_waiting (history.ended ⟨t, woken, before⟩ i)
    · obtain rfl : .peek t .null woken = e := by simpa using here
      cases step with
      | finish at_t lock ended => exact ended i

theorem history_init (n : Nat) : History n [] (State.init T.tasks n) where
  inv := inv_init n
  calls i := by simp [State.init, construct_statusOf]
  rets i := by simp [State.init, construct_statusOf]
  parents i begun := by simp [State.init, construct_statusOf] at begun
  created := by simp [State.init]
  exits member := by simp [State.init] at member
  ended seen := by simp at seen

theorem Run.history (run : T.Run n log s) : History n log s :=
  run.invariant (History n) (history_init n) fun history fired =>
    history.step (history.inv.step fired)

end

end DebianConf.Tasks
