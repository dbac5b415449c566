import DebianConf.Tasks.History

/-!
# Termination of the scheduler

Without spurious wake-ups the workers cannot keep each other busy for ever: every step lowers
the work that is left, or the number of threads that are left, or the number of threads that
are awake, in this order. A wake-up raises only the last of the three, and is sent only by
steps that lower one of the others.
-/

namespace DebianConf.Tasks

open DebianConf.Lib

/-- What is left to do for an entry. Starting it pays for the call and the return of its
function. -/
def TaskStatus.work : TaskStatus → Nat
  | .waiting => 4
  | .running => 1
  | .done => 0
  | .disable => 0

/-- `peekTask` returned a task whose function is not called yet. -/
def Thread.isPicked {n : Nat} : Thread n → Bool
  | .picked _ => true
  | _ => false

def Thread.isInside {n : Nat} : Thread n → Bool
  | .inside _ => true
  | _ => false

/-- The steps before a started function has returned. -/
def Thread.stage {n : Nat} (th : Thread n) : Nat :=
  2 * (if th.isPicked then 1 else 0) + if th.isInside then 1 else 0

def Thread.isLive {n : Nat} : Thread n → Bool
  | .exited => false
  | _ => true

def Thread.isUp {n : Nat} : Thread n → Bool
  | .asleep _ => false
  | .exited => false
  | _ => true

section
variable {ID : Type} [DecidableEq ID] [TaskId ID] {T : Table ID} {n : Nat} {s s' : State T.tasks}

/-- The work of the entries that are not done. -/
def entriesWork (T : Table ID) (sh : Shared ID) : Nat := ∑ i : T.Ptr, (T.statusOf sh i).work

/-- The work of the started functions, of creating the threads and of joining them. -/
def threadsWork {m : Nat} (threadMax joined : Nat) (threads : List (Thread m)) : Nat :=
  2 * threads.countP Thread.isPicked + threads.countP Thread.isInside +
    threadMax + (threadMax + threads.length - joined)

/-- Work left, threads left and threads awake, compared in this order. -/
def measure (s : State T.tasks) : ℕ ×ₗ ℕ ×ₗ ℕ :=
  toLex (entriesWork T s.shared + threadsWork s.threadMax s.joined s.threads,
    toLex (s.threads.countP Thread.isLive, s.threads.countP Thread.isUp))

omit [DecidableEq ID] in
theorem measure_lt_of_work
    (less : entriesWork T s'.shared + threadsWork s'.threadMax s'.joined s'.threads <
      entriesWork T s.shared + threadsWork s.threadMax s.joined s.threads) :
    measure s' < measure s :=
  Prod.Lex.toLex_lt_toLex.mpr (Or.inl less)

omit [DecidableEq ID] in
theorem measure_lt_of_threads
    (work : entriesWork T s'.shared + threadsWork s'.threadMax s'.joined s'.threads ≤
      entriesWork T s.shared + threadsWork s.threadMax s.joined s.threads)
    (less : s'.threads.countP Thread.isLive < s.threads.countP Thread.isLive ∨
      s'.threads.countP Thread.isLive = s.threads.countP Thread.isLive ∧
        s'.threads.countP Thread.isUp < s.threads.countP Thread.isUp) :
    measure s' < measure s := by
  rcases lt_or_eq_of_le work with lower | same
  · exact measure_lt_of_work lower
  · exact Prod.Lex.toLex_lt_toLex.mpr (Or.inr ⟨same, Prod.Lex.toLex_lt_toLex.mpr less⟩)

/-! ## Work -/

/-- Completing a task never adds work. -/
theorem Inv.lock_work (inv : Inv s) {t : Nat} {th : Thread T.tasks.length}
    (at_t : s.threads[t]? = some th) {sh : Shared ID} {childCount : Nat}
    (lock : th.lock T.tasks s.shared = some (sh, childCount)) :
    entriesWork T sh ≤ entriesWork T s.shared := by
  apply Finset.sum_le_sum
  intro i _
  rcases inv.lock_statusOf at_t lock i with same | ⟨running, finished⟩
  · rw [same]
  · rw [running, finished]
    exact Nat.zero_le _

theorem entriesWork_start {sh : Shared ID} {it : T.Ptr}
    (waiting : T.statusOf sh it = .waiting) :
    entriesWork T (sh.start it) + 3 = entriesWork T sh := by
  have change := sum_change (f := fun i => (T.statusOf (sh.start it) i).work)
    (g := fun i => (T.statusOf sh i).work) it (by
      intro j other
      simp only [start_statusOf, if_neg other])
  have started : T.statusOf (sh.start it) it = .running := by rw [start_statusOf, if_pos rfl]
  rw [started, waiting] at change
  exact Nat.add_right_cancel (m := 1) change

/-- Moving one thread changes the work of the threads by that of its place. -/
theorem threadsWork_set {m : Nat} {threads : List (Thread m)} {t : Nat} {th : Thread m}
    (at_t : threads[t]? = some th) (threadMax joined : Nat) (th' : Thread m) :
    threadsWork threadMax joined (threads.set t th') + th.stage =
      threadsWork threadMax joined threads + th'.stage := by
  have picked := countP_set Thread.isPicked at_t th'
  have inside := countP_set Thread.isInside at_t th'
  unfold threadsWork Thread.stage
  rw [List.length_set]
  omega

theorem threadsWork_wakeUp {m : Nat} {threads threads' : List (Thread m)} {woken : Option Nat}
    {notification : Notify} (wakes : wakeUp threads woken notification = some threads')
    (threadMax joined : Nat) :
    threadsWork threadMax joined threads' = threadsWork threadMax joined threads := by
  unfold threadsWork
  rw [wakeUp_countP wakes Thread.isPicked (by intro th; cases th <;> rfl),
    wakeUp_countP wakes Thread.isInside (by intro th; cases th <;> rfl), wakeUp_length wakes]

/-- A section of `peekTask` costs nothing but the stage its thread moves to. -/
theorem Inv.lock_threadsWork (inv : Inv s) {t : Nat} {th : Thread T.tasks.length}
    (at_t : s.threads[t]? = some th) {sh : Shared ID} {childCount : Nat}
    (lock : th.lock T.tasks s.shared = some (sh, childCount)) (th' : Thread T.tasks.length) :
    entriesWork T sh + threadsWork s.threadMax s.joined (s.threads.set t th') ≤
      entriesWork T s.shared + threadsWork s.threadMax s.joined s.threads + th'.stage := by
  have completed := inv.lock_work at_t lock
  have moved := threadsWork_set at_t s.threadMax s.joined th'
  omega

/-- A thread that can take the mutex is up. -/
theorem Thread.lock_some {tasks : List (TaskInfo ID)} {sh sh' : Shared ID}
    {th : Thread tasks.length} {childCount : Nat}
    (lock : th.lock tasks sh = some (sh', childCount)) : th.isLive = true ∧ th.isUp = true := by
  rcases Thread.lock_cases lock with ⟨it, rfl, _⟩ | ⟨_, rfl | rfl⟩ <;> exact ⟨rfl, rfl⟩

/-! ## The measure falls -/

/-- Every step but a spurious wake-up lowers the measure. -/
theorem Inv.measure_lt (inv : Inv s) {e : Event T.tasks.length} (step : Step s e s')
    (genuine : e.isSpurious = false) : measure s' < measure s := by
  cases step with
  | create left =>
    apply measure_lt_of_work
    simp only [threadsWork, List.countP_append, List.length_append, left]
    simp [Thread.isPicked, Thread.isInside]
    omega
  | @pick t th sh childCount it woken threads at_t lock ready wakes =>
    apply measure_lt_of_work
    show entriesWork T (sh.start it) + threadsWork s.threadMax s.joined threads < _
    have started : entriesWork T (sh.start it) + 3 = entriesWork T sh := entriesWork_start ready.1
    have paid := inv.lock_threadsWork at_t lock (.picked it)
    have stage : (Thread.picked it).stage = 2 := rfl
    rw [threadsWork_wakeUp wakes]
    omega
  | @sleep t th sh childCount at_t lock unready waits =>
    obtain ⟨live, up⟩ := Thread.lock_some lock
    apply measure_lt_of_threads
    · exact inv.lock_threadsWork at_t lock (.asleep childCount)
    · right
      have same := countP_set Thread.isLive at_t (.asleep childCount)
      have fewer := countP_set Thread.isUp at_t (.asleep childCount)
      rw [live] at same
      rw [up] at fewer
      refine ⟨Nat.add_right_cancel same, ?_⟩
      show (s.threads.set t (.asleep childCount)).countP Thread.isUp < _
      exact Nat.lt_of_succ_le (le_of_eq fewer)
  | @finish t th sh childCount at_t lock ended =>
    obtain ⟨live, -⟩ := Thread.lock_some lock
    have wakes := wakeUp_all.mpr
      ⟨rfl, (rfl : _ = (s.threads.set t .exited).map Thread.wake)⟩
    apply measure_lt_of_threads
    · show entriesWork T sh + threadsWork s.threadMax s.joined
        ((s.threads.set t .exited).map Thread.wake) ≤ _
      rw [threadsWork_wakeUp wakes]
      exact inv.lock_threadsWork at_t lock .exited
    · left
      have fewer := countP_set Thread.isLive at_t .exited
      rw [live] at fewer
      show List.countP _ ((s.threads.set t .exited).map Thread.wake) < _
      rw [wakeUp_countP wakes Thread.isLive (by intro th; cases th <;> rfl)]
      exact Nat.lt_of_succ_le (le_of_eq fewer)
  | @call t it at_t =>
    apply measure_lt_of_work
    have moved := threadsWork_set at_t s.threadMax s.joined (.inside it)
    have before : (Thread.picked it).stage = 2 := rfl
    have after : (Thread.inside it).stage = 1 := rfl
    show entriesWork T s.shared +
      threadsWork s.threadMax s.joined (s.threads.set t (.inside it)) < _
    omega
  | @ret t it at_t =>
    apply measure_lt_of_work
    have moved := threadsWork_set at_t s.threadMax s.joined (.enter (some it))
    have before : (Thread.inside it).stage = 1 := rfl
    have after : (Thread.enter (some it)).stage = 0 := rfl
    show entriesWork T s.shared +
      threadsWork s.threadMax s.joined (s.threads.set t (.enter (some it))) < _
    omega
  | spurious _ => cases genuine
  | join created ended =>
    apply measure_lt_of_work
    obtain ⟨inside, _⟩ := List.getElem?_eq_some_iff.mp ended
    simp only [threadsWork]
    omega

/-- Termination: without spurious wake-ups the steps from the reachable states are
well-founded, so that every sequence of them is finite. -/
theorem steps_wellFounded (T : Table ID) (n : Nat) :
    WellFounded fun s' s : State T.tasks =>
      T.Reachable n s ∧ ∃ e, e.isSpurious = false ∧ next s e = some s' :=
  wellFounded_of_measure wellFounded_lt measure (fun e => e.isSpurious = false)
    fun reached genuine fired => (Reachable.inv reached).measure_lt
      ((Reachable.inv reached).step fired) genuine

end

end DebianConf.Tasks
