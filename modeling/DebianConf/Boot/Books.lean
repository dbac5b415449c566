import DebianConf.Boot.Machine

/-!
# Programs under contract, side by side

The books have a page for every actor: what its calls so far amount to, under a contract. When
every function of the table keeps the contract from a page at rest to a page at rest, and `main`
keeps it too, then whatever the interleaving, every call of every actor is one that the contract
allows on the page of this actor, and the page of a thread between two functions is at rest.
-/

namespace DebianConf.Boot

open DebianConf.Lib DebianConf.Tasks

section
variable {ID : Type} [DecidableEq ID] [TaskId ID]

/-- A contract for the programs of a setup. -/
structure Terms (S : Setup ID) where
  contract : Contract SysCall SysCall.Answer
  first : Actor → contract.Ghost
  /-- what an answer is on the page of another actor of the process -/
  elsewhere : contract.Ghost → (c : SysCall) → c.Answer → Prop
  /-- a thread calls the function of an entry -/
  enter : S.table.Ptr → contract.Ghost → contract.Ghost
  /-- the page of a thread that is not inside of a function -/
  AtRest : contract.Ghost → Prop
  /-- the page of `main` when it returns -/
  Final : contract.Ghost → Prop

variable {S : Setup ID}

/-- A page for each actor, and how many processes have been started. -/
structure Books (K : Terms S) where
  page : Actor → K.contract.Ghost
  forked : Nat

variable (K : Terms S)

/-- The books after one more label. The page of a new process starts where that of its parent
stands, with the other answer of `fork`. -/
def Books.enter (b : Books K) : Label S.table.tasks.length → Books K
  | .sched (.call t it) =>
    { b with page := Function.update b.page (.thread t) (K.enter it (b.page (.thread t))) }
  | .sched _ => b
  | .sys a c r =>
    { page := Function.update
        (if c.spawns r then
          Function.update b.page (.child b.forked)
            (K.contract.after (b.page a) .fork inChild)
        else b.page) a (K.contract.after (b.page a) c r)
      forked := if c.spawns r then b.forked + 1 else b.forked }
  | .gone _ _ => b

/-- The books of a log. -/
def books (log : List (Label S.table.tasks.length)) : Books K :=
  log.foldl (Books.enter K) ⟨K.first, 0⟩

/-- The answer is one that the contract lets the caller expect, and the others too. -/
def Expected (b : Books K) : Label S.table.tasks.length → Prop
  | .sys a c r => K.contract.answers (b.page a) c r ∧
      ∀ a' ≠ a, a'.isChild = false → K.elsewhere (b.page a') c r
  | _ => True

/-- Everything that the system has answered was expected. -/
def Honest (log : List (Label S.table.tasks.length)) : Prop :=
  ∀ before l after, log = before ++ l :: after → Expected K (books K before) l

/-- Every function keeps the contract, and so does `main`. -/
structure Terms.Kept : Prop where
  first : ∀ t, K.AtRest (K.first (.thread t))
  child : ∀ g, K.contract.answers g .fork inChild
  fnc : ∀ it g, K.AtRest g →
    (S.fnc it).wp K.contract (fun _ => K.AtRest) (K.enter it g)
  main : S.main.wp K.contract (fun _ => K.Final) (K.first .main)

/-- What holds of the page of an actor when its program returns. -/
def Terms.Ends : Actor → K.contract.Ghost → Prop
  | .main, g => K.Final g
  | .thread _, g => K.AtRest g
  | .child _, g => K.Final g ∨ K.AtRest g

/-- What is left of the program of an actor keeps the contract from its page on. -/
def Terms.Follows (a : Actor) : Option (Prog Unit) → K.contract.Ghost → Prop
  | some p, g => p.wp K.contract (fun _ => K.Ends a) g
  | none, g => ∀ t, a = .thread t → K.AtRest g

/-- Every actor follows the contract. -/
structure Bound (s : State S) (b : Books K) : Prop where
  forked : b.forked = s.forked
  follows : ∀ a, K.Follows a (s.code a) (b.page a)

variable {K} {log : List (Label S.table.tasks.length)} {s s' : State S} {b : Books K}

omit [DecidableEq ID] in
theorem books_snoc (l : Label S.table.tasks.length) :
    books K (log ++ [l]) = (books K log).enter K l := by
  rw [books, List.foldl_append]
  rfl

omit [DecidableEq ID] in
theorem page_sys_self (a : Actor) (c : SysCall) (r : c.Answer) :
    (b.enter K (.sys a c r)).page a = K.contract.after (b.page a) c r := Function.update_self ..

omit [DecidableEq ID] in
theorem page_sys_of_ne {a a' : Actor} (other : a' ≠ a) (old : a' ≠ .child b.forked) (c : SysCall)
    (r : c.Answer) : (b.enter K (.sys a c r)).page a' = b.page a' := by
  refine (Function.update_of_ne other _ _).trans ?_
  split
  · exact Function.update_of_ne old _ _
  · rfl

omit [DecidableEq ID] in
theorem page_sys_child {a : Actor} (other : .child b.forked ≠ a) (c : SysCall) (r : c.Answer) :
    (b.enter K (.sys a c r)).page (.child b.forked) =
      if c.spawns r then K.contract.after (b.page a) .fork inChild
      else b.page (.child b.forked) := by
  refine (Function.update_of_ne other _ _).trans ?_
  split
  · exact Function.update_self ..
  · rfl

omit [DecidableEq ID] in
theorem Honest.init {l : Label S.table.tasks.length} (honest : Honest K (log ++ [l])) :
    Honest K log := by
  intro before x after same
  exact honest before x (after ++ [l]) (by rw [same]; simp)

omit [DecidableEq ID] in
theorem Honest.last {l : Label S.table.tasks.length} (honest : Honest K (log ++ [l])) :
    Expected K (books K log) l := honest log l [] rfl

omit [DecidableEq ID] in
theorem Honest.snoc {l : Label S.table.tasks.length} (honest : Honest K log)
    (expected : Expected K (books K log) l) : Honest K (log ++ [l]) := by
  intro before x after same
  rcases List.eq_nil_or_concat after with rfl | ⟨after, last, rfl⟩
  · obtain ⟨rfl, equal⟩ := List.append_inj' same rfl
    rw [← (List.cons.inj equal).1]
    exact expected
  · rw [List.concat_eq_append, ← List.cons_append, ← List.append_assoc] at same
    exact honest before x after (List.append_inj' same rfl).1

omit [DecidableEq ID] in
theorem Bound.keeps (bound : Bound K s b) {a : Actor} {p : Prog Unit} (here : s.code a = some p) :
    p.wp K.contract (fun _ => K.Ends a) (b.page a) := by
  have follows := bound.follows a
  rw [here] at follows
  exact follows

omit [DecidableEq ID] in
theorem Bound.rests (bound : Bound K s b) {t : Nat} (outside : s.code (.thread t) = none) :
    K.AtRest (b.page (.thread t)) := by
  have follows := bound.follows (.thread t)
  rw [outside] at follows
  exact follows t rfl

omit [DecidableEq ID] in
/-- The call that an actor is about to make is allowed. -/
theorem Bound.allowed (bound : Bound K s b) {a : Actor} {c : SysCall}
    (stands : s.pending a = some c) : K.contract.allows (b.page a) c := by
  rcases Option.bind_eq_some_iff.mp stands with ⟨p, here, stands⟩
  rcases Program.pending_eq_some.mp stands with ⟨k, stands⟩
  exact (Program.wp_calls (bound.keeps here) stands).1

omit [DecidableEq ID] in
/-- A program and its page are replaced together. -/
theorem follows_update {code : Actor → Option (Prog Unit)} {page : Actor → K.contract.Ghost}
    (follows : ∀ a, K.Follows a (code a) (page a)) {a : Actor} {p : Option (Prog Unit)}
    {g : K.contract.Ghost} (here : K.Follows a p g) (a' : Actor) :
    K.Follows a' (Function.update code a p a') (Function.update page a g a') := by
  by_cases same : a' = a
  · subst same
    rw [Function.update_self, Function.update_self]
    exact here
  · rw [Function.update_of_ne same, Function.update_of_ne same]
    exact follows a'

omit [DecidableEq ID] in
/-- A program is replaced and its page is not. -/
theorem follows_update_code {code : Actor → Option (Prog Unit)} {page : Actor → K.contract.Ghost}
    (follows : ∀ a, K.Follows a (code a) (page a)) {a : Actor} {p : Option (Prog Unit)}
    (here : K.Follows a p (page a)) (a' : Actor) :
    K.Follows a' (Function.update code a p a') (page a') := by
  have both := follows_update follows here a'
  rwa [Function.update_eq_self] at both

theorem bound_init (kept : K.Kept) : Bound K (State.init S) (books K []) where
  forked := rfl
  follows a := by
    cases a with
    | main => exact kept.main
    | thread t => exact fun _ _ => kept.first t
    | child j => exact fun t same => by cases same

omit [DecidableEq ID] in
/-- The new process goes on with the program of its parent. -/
theorem Bound.spawn (bound : Bound K s b) (kept : K.Kept) {a : Actor} {c : SysCall} {r : c.Answer}
    {p : Prog Unit} {k : c.Answer → Prog Unit} (here : s.code a = some p)
    (stands : p.head = .calls c k) (spawns : c.spawns r = true) :
    K.Follows (.child s.forked) ((s.code a).bind fun p => p.answer .fork inChild)
      (K.contract.after (b.page a) .fork inChild) := by
  obtain rfl := fork_of_spawns spawns
  rw [here, Option.bind_some, Program.answer_of_head stands]
  have going := (Program.wp_calls (bound.keeps here) stands).2 _ (kept.child (b.page a))
  apply Program.wp_mono _ going
  intro _ g ends
  cases a with
  | main => exact Or.inl ends
  | thread t => exact Or.inr ends
  | child j => exact ends

theorem Bound.step (bound : Bound K s b) (kept : K.Kept) (wired : Wired s) (inv : Inv s.sched)
    {l : Label S.table.tasks.length} (expected : Expected K b l) (step : Step s l s') :
    Bound K s' (b.enter K l) := by
  cases step with
  | @sched e sched code starting fired dispatched =>
    rcases dispatch_cases dispatched with ⟨t, it, rfl, rfl⟩ | ⟨t, it, rfl, back, rfl⟩ |
      ⟨silent, rfl⟩
    · have outside : inside s.sched.threads t = none := by
        cases inv.step fired with
        | call at_t => rw [inside, at_t]; rfl
      refine ⟨bound.forked, follows_update bound.follows ?_⟩
      exact kept.fnc it _ (bound.rests ((wired.threads t).mpr outside))
    · refine ⟨bound.forked, follows_update_code bound.follows ?_⟩
      intro t' same
      obtain rfl := Actor.thread.inj same
      cases here : s.code (.thread t) with
      | none => exact bound.rests here
      | some p =>
        rw [State.pending, here] at back
        rcases Program.pending_eq_none.mp back with ⟨_, stands⟩
        exact Program.wp_returned (bound.keeps here) stands
    · have page : b.enter K (.sched e) = b := by
        cases e with
        | call t it => cases silent
        | _ => rfl
      rw [page]
      exact ⟨bound.forked, bound.follows⟩
  | @sys a c r p p' admitted here answered =>
    rcases Program.answer_eq_some answered with ⟨k, stands, rfl⟩
    have going := (Program.wp_calls (bound.keeps here) stands).2 r expected.1
    by_cases spawns : c.spawns r = true
    · simp only [Books.enter, State.spawn, if_pos spawns]
      refine ⟨congrArg (· + 1) bound.forked, follows_update ?_ going⟩
      rw [bound.forked]
      exact follows_update bound.follows (bound.spawn kept here stands spawns)
    · simp only [Books.enter, State.spawn, if_neg spawns]
      exact ⟨bound.forked, follows_update bound.follows going⟩
  | @gone a c replaces apart stands =>
    refine ⟨bound.forked, follows_update_code bound.follows ?_⟩
    rintro t rfl
    cases apart

/-- Whatever the interleaving, every actor keeps the contract as long as the answers are those
that it can expect. -/
theorem Run.bound (kept : K.Kept) (run : S.Run log s) (honest : Honest K log) :
    Bound K s (books K log) := by
  induction run with
  | nil => exact bound_init kept
  | snoc before fired ih =>
    rw [books_snoc]
    exact (ih honest.init).step kept (Run.wired before) (Reachable.inv ⟨_, Run.sched before⟩)
      honest.last (step_of_next fired)

end

end DebianConf.Boot
