import DebianConf.Lib.Inevitable
import DebianConf.Tasks.Termination
import DebianConf.Tasks.WorkConservation

/-!
# Which interleavings of the task functions there are

Seen from outside, a run is a sequence of functions that begin and end. `Table.Schedule` says
which sequences a table allows to `n` workers: a function begins once, when its parents are
satisfied by functions that have ended and a worker is free. The scheduler produces no other
sequences, and with as many threads as entries it can produce every one of them, even without
spurious wake-ups: the notify rule leaves nothing out.
-/

namespace DebianConf.Tasks

open TaskId DebianConf.Lib

section
variable {n : Nat}

/-- What is seen of a task function: it begins or it ends. -/
inductive Act (n : Nat) where
  | begins (i : Fin n)
  | ends (i : Fin n)
  deriving DecidableEq, Repr

/-- What is seen of a step. -/
def Event.act : Event n → Option (Act n)
  | .call _ it => some (.begins it)
  | .ret _ it => some (.ends it)
  | _ => none

/-- What is seen of a log. -/
def acts (log : List (Event n)) : List (Act n) := log.filterMap Event.act

/-- The functions that have begun and not ended. -/
def underWay (tr : List (Act n)) : Finset (Fin n) :=
  Finset.univ.filter fun i => .begins i ∈ tr ∧ .ends i ∉ tr

/-- The steps of `start` and of `peekTask` that lead up to the call of a function. -/
def Event.Preparing : Event n → Prop
  | .create => True
  | .peek _ _ _ => True
  | _ => False

/-- The entry whose function the thread executes. -/
def Thread.inside? : Thread n → Option (Fin n)
  | .inside it => some it
  | _ => none

theorem acts_append (log more : List (Event n)) : acts (log ++ more) = acts log ++ acts more :=
  List.filterMap_append

theorem acts_preparing {more : List (Event n)} (prepares : ∀ e ∈ more, e.Preparing) :
    acts more = [] := by
  rw [acts, List.filterMap_eq_nil_iff]
  intro e member
  cases e with
  | call t it => exact absurd (prepares _ member) id
  | ret t it => exact absurd (prepares _ member) id
  | _ => rfl

theorem begins_mem_acts {log : List (Event n)} {i : Fin n} :
    .begins i ∈ acts log ↔ 0 < log.countP (Event.isCall i) := by
  rw [List.countP_pos_iff, acts, List.mem_filterMap]
  apply exists_congr
  intro e
  cases e <;> simp [Event.act, Event.isCall]

theorem ends_mem_acts {log : List (Event n)} {i : Fin n} :
    .ends i ∈ acts log ↔ 0 < log.countP (Event.isRet i) := by
  rw [List.countP_pos_iff, acts, List.mem_filterMap]
  apply exists_congr
  intro e
  cases e <;> simp [Event.act, Event.isRet]

theorem ended_eq_returned (log : List (Event n)) :
    {i : Fin n | .ends i ∈ acts log} = returned log := by
  ext i
  rw [mem_returned_iff, ← ends_mem_acts]
  rfl

end

section
variable {ID : Type} [DecidableEq ID] [TaskId ID]

omit [DecidableEq ID] in
/-- The sequences of begins and ends that the dependencies of the table and `n` workers
allow. -/
inductive Table.Schedule (T : Table ID) (n : Nat) : List (Act T.tasks.length) → Prop
  | nil : Table.Schedule T n []
  | begins {tr : List (Act T.tasks.length)} {i : T.Ptr} : Table.Schedule T n tr →
      .begins i ∉ tr → T.ParentsSatisfied {j | .ends j ∈ tr} i → (underWay tr).card < n →
      Table.Schedule T n (tr ++ [.begins i])
  | ends {tr : List (Act T.tasks.length)} {i : T.Ptr} : Table.Schedule T n tr →
      .begins i ∈ tr → .ends i ∉ tr → Table.Schedule T n (tr ++ [.ends i])

variable {T : Table ID} {n : Nat} {log : List (Event T.tasks.length)} {s s' : State T.tasks}

/-! ## Every run is a schedule -/

/-- What only a holder of the entry accounts for is seen at most once. -/
theorem Accounted.le_one {mark : T.Ptr → Thread T.tasks.length → Bool}
    {label : T.Ptr → Event T.tasks.length → Bool} (accounted : Accounted mark label log s)
    (inv : Inv s) (sub : ∀ i th, mark i th = true → th.holds i = true) (i : T.Ptr) :
    log.countP (label i) ≤ 1 := by
  have marked : s.threads.countP (mark i) ≤ s.threads.countP (Thread.holds i) :=
    List.countP_mono_left fun th _ => sub i th
  rw [inv.held i] at marked
  rw [accounted i]
  by_cases finished : T.statusOf s.shared i = .done
  · rw [if_neg (by simp [finished])] at marked
    rw [if_pos finished]
    omega
  · rw [if_neg finished]
    split at marked <;> omega

theorem hasReturned_holds {m : Nat} (i : Fin m) (th : Thread m) (h : th.hasReturned i = true) :
    th.holds i = true := by
  cases th with
  | enter it => cases it <;> exact h
  | _ => cases h

/-- A function under way is executed by a thread. -/
theorem History.underWay_inside (history : History n log s) {i : T.Ptr}
    (member : i ∈ underWay (acts log)) : i ∈ s.threads.filterMap Thread.inside? := by
  have seen := (Finset.mem_filter.mp member).2
  rw [begins_mem_acts, ends_mem_acts, history.calls i, history.rets i] at seen
  rcases seen with ⟨called, unreturned⟩
  have pending : 0 < s.threads.countP (Thread.hasCalled i) := by omega
  rcases List.countP_pos_iff.mp pending with ⟨th, there, holder⟩
  rw [List.mem_filterMap]
  refine ⟨th, there, ?_⟩
  cases th with
  | inside j =>
    have same : j = i := by simpa [Thread.hasCalled] using holder
    rw [Thread.inside?, same]
  | enter it =>
    cases it with
    | none => cases holder
    | some j =>
      have back : 0 < s.threads.countP (Thread.hasReturned i) :=
        List.countP_pos_iff.mpr ⟨_, there, holder⟩
      omega
  | _ => cases holder

/-- A thread that executes no function leaves room for one more. -/
theorem History.underWay_lt (history : History n log s) {t : Nat} {th : Thread T.tasks.length}
    (at_t : s.threads[t]? = some th) (outside : th.inside? = none) :
    (underWay (acts log)).card < n := by
  have sub : underWay (acts log) ⊆ (s.threads.filterMap Thread.inside?).toFinset :=
    fun i member => List.mem_toFinset.mpr (history.underWay_inside member)
  have fewer : (s.threads.filterMap Thread.inside?).length < s.threads.length :=
    List.length_filterMap_lt_length_iff_exists.mpr ⟨th, List.mem_of_getElem? at_t, outside⟩
  have created := history.created
  calc (underWay (acts log)).card
      ≤ (s.threads.filterMap Thread.inside?).toFinset.card := Finset.card_le_card sub
    _ ≤ (s.threads.filterMap Thread.inside?).length := List.toFinset_card_le _
    _ < n := by omega

theorem History.schedule_step (history : History n log s) (schedule : T.Schedule n (acts log))
    {e : Event T.tasks.length} (step : Step s e s') : T.Schedule n (acts (log ++ [e])) := by
  have after := history.step step
  rw [acts_append]
  cases step with
  | @call t it at_t =>
    have once := after.calls.le_one after.inv hasCalled_holds it
    rw [List.countP_append, List.countP_singleton] at once
    refine .begins schedule ?_ ?_ (history.underWay_lt at_t rfl)
    · rw [begins_mem_acts]
      simp only [Event.isCall, decide_true, if_true] at once
      omega
    · rw [ended_eq_returned]
      apply history.parents it
      exact Or.inl (history.inv.running_of_holds at_t it (by simp [Thread.holds]))
  | @ret t it at_t =>
    have once := after.rets.le_one after.inv hasReturned_holds it
    rw [List.countP_append, List.countP_singleton] at once
    refine .ends schedule ?_ ?_
    · have pending : 0 < s.threads.countP (Thread.hasCalled it) :=
        List.countP_pos_iff.mpr ⟨_, List.mem_of_getElem? at_t, by simp [Thread.hasCalled]⟩
      rw [begins_mem_acts, history.calls it]
      omega
    · rw [ends_mem_acts]
      simp only [Event.isRet, decide_true, if_true] at once
      omega
  | _ =>
    rw [← List.append_nil (acts log)] at schedule
    exact schedule

theorem Run.schedule (run : T.Run n log s) : T.Schedule n (acts log) := by
  have both : History n log s ∧ T.Schedule n (acts log) := by
    apply run.invariant (fun log s => History n log s ∧ T.Schedule n (acts log))
      ⟨history_init n, .nil⟩
    intro log s e s' before fired
    have step := before.1.inv.step fired
    exact ⟨before.1.step step, before.1.schedule_step before.2 step⟩
  exact both.2

/-! ## Calm states -/

/-- No thread is about to take the mutex. -/
structure Calm (s : State T.tasks) : Prop where
  created : s.threadMax = 0
  placed : ∀ th ∈ s.threads, th.isAsleep = true ∨ (∃ it, th = .picked it) ∨
    (∃ it, th = .inside it) ∨ th = .exited

theorem calm_of_stuck (stuck : Stuck next Event.Preparing s) : Calm s := by
  constructor
  · cases left : s.threadMax with
    | zero => rfl
    | succ k =>
      have fired : next s .create =
          some { s with threadMax := k, threads := s.threads ++ [.enter none] } := by
        simp only [next, left]
      exact absurd fired (stuck .create _ trivial)
  · intro th member
    rcases List.mem_iff_getElem?.mp member with ⟨t, at_t⟩
    have unlocked : ∀ sh childCount, th.lock T.tasks s.shared ≠ some (sh, childCount) := by
      intro sh childCount lock
      rcases peek_fires at_t lock with ⟨out, woken, s', fired⟩
      exact stuck (.peek t out woken) s' trivial fired
    cases th with
    | enter it =>
      cases it with
      | none => exact absurd rfl (unlocked _ _)
      | some it => exact absurd rfl (unlocked _ _)
    | asleep c => exact Or.inl rfl
    | woken c => exact absurd rfl (unlocked _ _)
    | picked it => exact Or.inr (Or.inl ⟨it, rfl⟩)
    | inside it => exact Or.inr (Or.inr (Or.inl ⟨it, rfl⟩))
    | exited => exact Or.inr (Or.inr (Or.inr rfl))

/-- Threads that all have an entry in their hands are as many as the running entries. -/
theorem Inv.running_of_busy (inv : Inv s)
    (busy : ∀ th ∈ s.threads, (∃ it, th = .picked it) ∨ ∃ it, th = .inside it) :
    (Finset.univ.filter fun i : T.Ptr => T.statusOf s.shared i = .running).card =
      s.threads.length := by
  rw [Finset.card_filter, ← sum_countP_of_unique Thread.holds s.threads]
  · exact Finset.sum_congr rfl fun i _ => (inv.held i).symm
  · intro th member
    rcases busy th member with ⟨it, rfl⟩ | ⟨it, rfl⟩
    · exact ⟨it, by simp [Thread.holds], by simp [Thread.holds]⟩
    · exact ⟨it, by simp [Thread.holds], by simp [Thread.holds]⟩

/-- With as many threads as entries nothing is ready in a calm state. -/
theorem Calm.unready (calm : Calm s) (order : T.ParentsInOrder) (noGroup : T.NoneNotGroup)
    (enough : T.tasks.length ≤ n) (run : T.Run n log s) (i : T.Ptr) :
    ¬ Ready s.shared.status (entry T.tasks i) := by
  intro ready
  have waiting : T.statusOf s.shared i = .waiting := ready.1
  have history := Run.history run
  by_cases sleeper : ∃ th ∈ s.threads, th.isAsleep = true
  · have bound := Reachable.conserved order noGroup ⟨log, run⟩ sleeper
    have scanning : s.threads.countP Thread.toScan = 0 := by
      rw [List.countP_eq_zero]
      intro th member
      rcases calm.placed th member with asleep | ⟨it, rfl⟩ | ⟨it, rfl⟩ | rfl
      · cases th <;> simp_all [Thread.isAsleep, Thread.toScan]
      all_goals simp [Thread.toScan]
    have counted : 0 < readyCount T.tasks s.shared.status :=
      Finset.card_pos.mpr ⟨i, Finset.mem_filter.mpr ⟨Finset.mem_univ i, ready⟩⟩
    omega
  · by_cases gone : .exited ∈ s.threads
    · exact history.ended (history.exits gone) i waiting
    · -- every thread has an entry of its own, so none is left over for `i`
      have busy := history.inv.running_of_busy (by
        intro th member
        rcases calm.placed th member with asleep | picked | inside | rfl
        · exact absurd ⟨th, member, asleep⟩ sleeper
        · exact Or.inl picked
        · exact Or.inr inside
        · exact absurd member gone)
      have created := history.created
      have fewer : (Finset.univ.filter fun i : T.Ptr =>
          T.statusOf s.shared i = .running).card < (Finset.univ : Finset T.Ptr).card := by
        apply Finset.card_lt_card
        refine Finset.filter_ssubset.mpr ⟨i, Finset.mem_univ i, ?_⟩
        simp [waiting]
      rw [Finset.card_univ, Fintype.card_fin] at fewer
      have none_left := calm.created
      omega

/-- In a calm state the entries done are those whose function has returned. -/
theorem Calm.returned_eq (calm : Calm s) (history : History n log s) :
    returned log = T.doneSet s.shared := by
  apply Set.Subset.antisymm _ history.rets.done_returned
  intro i back
  rw [mem_returned_iff, history.rets i] at back
  by_contra unfinished
  rw [if_neg (show ¬ T.statusOf s.shared i = .done from unfinished), Nat.zero_add] at back
  rcases List.countP_pos_iff.mp back with ⟨th, member, holder⟩
  rcases calm.placed th member with asleep | ⟨it, rfl⟩ | ⟨it, rfl⟩ | rfl
  · cases th with
    | asleep c => cases holder
    | _ => cases asleep
  all_goals cases holder

/-! ## Every schedule is a run -/

theorem Event.Preparing.genuine {m : Nat} {e : Event m} (prepares : e.Preparing) :
    e.isSpurious = false := by
  cases e with
  | spurious t => exact absurd prepares id
  | _ => rfl

/-- The steps up to the next calls can be taken until the state is calm, which shows
nothing. -/
theorem Run.calm (run : T.Run n log s) (genuine : ∀ e ∈ log, e.isSpurious = false) :
    ∃ log' s', T.Run n log' s' ∧ (∀ e ∈ log', e.isSpurious = false) ∧ acts log' = acts log ∧
      Calm s' := by
  have drops : ∀ {s e s'}, T.Reachable n s → e.Preparing → next s e = some s' →
      measure s' < measure s := by
    intro s e s' reached prepares fired
    have inv := Reachable.inv reached
    exact inv.measure_lt (inv.step fired) prepares.genuine
  rcases Lib.Run.exhaust wellFounded_lt measure drops run with
    ⟨more, s', prepares, later, stuck⟩
  refine ⟨log ++ more, s', later, ?_, ?_, calm_of_stuck stuck⟩
  · intro e member
    rcases List.mem_append.mp member with before | added
    · exact genuine e before
    · exact (prepares e added).genuine
  · rw [acts_append, acts_preparing prepares, List.append_nil]

/-- A function that is ready to begin has been picked by a thread of a calm state. -/
theorem Calm.picked (calm : Calm s) (history : History n log s)
    (unready : ∀ i : T.Ptr, ¬ Ready s.shared.status (entry T.tasks i)) {i : T.Ptr}
    (unbegun : .begins i ∉ acts log) (satisfied : T.ParentsSatisfied (returned log) i) :
    ∃ t : Nat, s.threads[t]? = some (.picked i) := by
  rw [begins_mem_acts, history.calls i] at unbegun
  rw [calm.returned_eq history] at satisfied
  have running : T.statusOf s.shared i = .running := by
    cases status : T.statusOf s.shared i with
    | running => rfl
    | waiting => exact absurd ((history.inv.shared.ready_iff i).mpr ⟨status, satisfied⟩) (unready i)
    | done =>
      rw [if_pos status] at unbegun
      omega
    | disable => exact absurd status (history.inv.shared.enabled i)
  have held := history.inv.held i
  rw [if_pos running] at held
  rcases List.countP_pos_iff.mp (by rw [held]; exact Nat.one_pos) with ⟨th, member, holder⟩
  rcases calm.placed th member with asleep | ⟨it, rfl⟩ | ⟨it, rfl⟩ | rfl
  · cases th with
    | asleep c => cases holder
    | _ => cases asleep
  · have same : it = i := by simpa [Thread.holds] using holder
    exact List.mem_iff_getElem?.mp (same ▸ member)
  · have called : 0 < s.threads.countP (Thread.hasCalled i) :=
      List.countP_pos_iff.mpr ⟨_, member, holder⟩
    omega
  · cases holder

/-- A function under way is executed by a thread. -/
theorem History.inside (history : History n log s) {i : T.Ptr} (begun : .begins i ∈ acts log)
    (unended : .ends i ∉ acts log) : ∃ t : Nat, s.threads[t]? = some (.inside i) := by
  have member := history.underWay_inside
    (Finset.mem_filter.mpr ⟨Finset.mem_univ i, begun, unended⟩)
  rcases List.mem_filterMap.mp member with ⟨th, there, same⟩
  cases th with
  | inside j =>
    obtain rfl : j = i := Option.some.inj same
    exact List.mem_iff_getElem?.mp there
  | _ => cases same

theorem Table.Schedule.run (order : T.ParentsInOrder) (noGroup : T.NoneNotGroup)
    (enough : T.tasks.length ≤ n) {tr : List (Act T.tasks.length)} (schedule : T.Schedule n tr) :
    ∃ log s, T.Run n log s ∧ (∀ e ∈ log, e.isSpurious = false) ∧ acts log = tr ∧ Calm s := by
  have go_on : ∀ {log s e s'}, T.Run n log s → (∀ e ∈ log, e.isSpurious = false) →
      next s e = some s' → e.isSpurious = false → ∃ log' s'', T.Run n log' s'' ∧
        (∀ e ∈ log', e.isSpurious = false) ∧ acts log' = acts log ++ acts [e] ∧ Calm s'' := by
    intro log s e s' run genuine fired kind
    rw [← acts_append]
    apply Run.calm (run.snoc fired)
    intro x member
    rcases List.mem_append.mp member with before | here
    · exact genuine x before
    · rw [List.mem_singleton.mp here, kind]
  induction schedule with
  | nil => exact Run.calm .nil (by simp)
  | @begins tr i _ unbegun satisfied _ ih =>
    rcases ih with ⟨log, s, run, genuine, rfl, calm⟩
    rw [ended_eq_returned] at satisfied
    rcases calm.picked (Run.history run) (calm.unready order noGroup enough run) unbegun satisfied
      with ⟨t, at_t⟩
    have fired : next s (.call t i) = some { s with threads := s.threads.set t (.inside i) } :=
      if_pos at_t
    exact go_on run genuine fired rfl
  | @ends tr i _ begun unended ih =>
    rcases ih with ⟨log, s, run, genuine, rfl, calm⟩
    rcases (Run.history run).inside begun unended with ⟨t, at_t⟩
    have fired : next s (.ret t i) =
        some { s with threads := s.threads.set t (.enter (some i)) } :=
      if_pos at_t
    exact go_on run genuine fired rfl

/-- The interleavings of the task functions. In every run, of any table and for any number of
threads, the functions begin and end in an order the dependencies allow, at most one a thread at a
time. With a thread for each entry every such order is taken by some run, and spurious wake-ups are
not needed for it, in tables that use `parent_id2` only with `parent_id` and `none_id` as no
group. This second half is under the provisos of `next`. -/
theorem interleavings (n : Nat) :
    (∀ log s, T.Run n log s → T.Schedule n (acts log)) ∧
    (T.ParentsInOrder → T.NoneNotGroup → T.tasks.length ≤ n → ∀ tr, T.Schedule n tr →
      ∃ log s, T.Run n log s ∧ (∀ e ∈ log, e.isSpurious = false) ∧ acts log = tr) := by
  refine ⟨fun log s run => Run.schedule run, fun order noGroup enough tr schedule => ?_⟩
  rcases schedule.run order noGroup enough with ⟨log, s, run, genuine, same, _⟩
  exact ⟨log, s, run, genuine, same⟩

end

/-- The boot program with a thread for each of its sixteen tasks: the eighth task may begin
before the first one, and end. -/
theorem interleavings_boot : ∃ log s, bootTable.Run 16 log s ∧
    (∀ e ∈ log, e.isSpurious = false) ∧
    acts log = [.begins (7 : Fin 16), .begins (0 : Fin 16), .ends (7 : Fin 16)] := by
  have parents : ∀ (i : bootTable.Ptr) (S : Set bootTable.Ptr),
      (entry bootTable.tasks i).parentId = .none → (entry bootTable.tasks i).parentId2 = .none →
      bootTable.ParentsSatisfied S i := fun i S first second => ⟨Or.inl first, Or.inl second⟩
  have schedule : bootTable.Schedule 16
      ([] ++ [.begins (7 : Fin 16)] ++ [.begins (0 : Fin 16)] ++ [.ends (7 : Fin 16)]) := by
    apply Table.Schedule.ends _ (by decide) (by decide)
    apply Table.Schedule.begins _ (by decide) (parents (0 : Fin 16) _ rfl rfl) (by decide)
    exact .begins .nil (by decide) (parents (7 : Fin 16) _ rfl rfl) (by decide)
  exact (interleavings 16).2 bootTable_parentsInOrder bootTable_noneNotGroup (by decide) _ schedule

end DebianConf.Tasks
