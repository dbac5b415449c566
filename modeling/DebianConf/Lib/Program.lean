import Mathlib.Logic.Basic

/-!
# Programs that make calls

A program makes calls to its environment and goes on with the answers. What it may do is
specified by a contract: which calls it may make, which answers it can expect, and what the
calls so far amount to. `wp` is the weakest precondition of a program under a contract; it is
computed from the program, except for the invariants of its loops, and it is kept by every
call that is answered. Programs whose loops end with the answers to come are well-founded under
such answers.
-/

namespace DebianConf.Lib

/-- Programs that make calls `c : C`, each answered by an `R c`, and return an `α`.
`poll c body k` makes the call `c` and runs `body` on the answer, again and again until `body`
returns false. -/
inductive Program (C : Type) (R : C → Type) : Type → Type 1
  | done {α : Type} (a : α) : Program C R α
  | ask {α : Type} (c : C) (k : R c → Program C R α) : Program C R α
  | poll {α : Type} (c : C) (body : R c → Program C R Bool) (k : Program C R α) : Program C R α

namespace Program

variable {C : Type} {R : C → Type} {α β : Type}

protected def bind {α β : Type} : Program C R α → (α → Program C R β) → Program C R β
  | .done a, f => f a
  | .ask c k, f => .ask c fun r => (k r).bind f
  | .poll c body k, f => .poll c body (k.bind f)

instance : Monad (Program C R) where
  pure := .done
  bind := .bind

/-- The program that makes one call and returns the answer. -/
def call (c : C) : Program C R (R c) := .ask c .done

/-- Calls `c` and goes on as long as `body` returns true on the answer. -/
def repeatCall (c : C) (body : R c → Program C R Bool) : Program C R Unit := .poll c body (.done ())

/-- Runs `body` on the elements of a list, one after another. -/
def forEach {α β : Type} (body : α → Program C R β) : List α → Program C R (List β)
  | [] => pure []
  | a :: l => do
    let b ← body a
    let bs ← forEach body l
    return b :: bs

/-- Where a program stands: it has returned, or it makes a call and waits for the answer. -/
inductive Head (C : Type) (R : C → Type) (α : Type) : Type 1
  | returned (a : α) : Head C R α
  | calls (c : C) (k : R c → Program C R α) : Head C R α

def head : Program C R α → Head C R α
  | .done a => .returned a
  | .ask c k => .calls c k
  | .poll c body k =>
    .calls c fun r => (body r).bind fun again => if again then .poll c body k else k

/-- The program after the call `c` has been answered by `r`, if it makes this call. -/
def answer [DecidableEq C] (p : Program C R α) (c : C) (r : R c) : Option (Program C R α) :=
  match p.head with
  | .returned _ => none
  | .calls c' k => if same : c = c' then some (k (same ▸ r)) else none

/-- The call that the program makes next, `none` when it has returned. -/
def pending (p : Program C R α) : Option C :=
  match p.head with
  | .returned _ => none
  | .calls c _ => some c

theorem answer_eq_some [DecidableEq C] {p p' : Program C R α} {c : C} {r : R c}
    (answered : p.answer c r = some p') : ∃ k, p.head = .calls c k ∧ p' = k r := by
  unfold answer at answered
  split at answered
  · cases answered
  · next c' k stands =>
    split at answered
    · next same =>
      subst same
      exact ⟨k, stands, (Option.some.inj answered).symm⟩
    · cases answered

theorem answer_of_head [DecidableEq C] {p : Program C R α} {c : C} {k : R c → Program C R α}
    (stands : p.head = .calls c k) (r : R c) : p.answer c r = some (k r) := by
  unfold answer
  rw [stands]
  simp

theorem pending_eq_none {p : Program C R α} : p.pending = none ↔ ∃ a, p.head = .returned a := by
  unfold pending
  cases stands : p.head with
  | returned a => simp
  | calls c k => simp

theorem pending_eq_some {p : Program C R α} {c : C} :
    p.pending = some c ↔ ∃ k, p.head = .calls c k := by
  unfold pending
  cases stands : p.head with
  | returned a => simp
  | calls c' k =>
    constructor
    · intro same
      cases same
      exact ⟨k, rfl⟩
    · intro given
      rcases given with ⟨k', same⟩
      cases same
      rfl

end Program

/-! ## Contracts -/

/-- What a program may call and expect. The ghost records what the calls so far amount to. -/
structure Contract (C : Type) (R : C → Type) where
  Ghost : Type
  allows : Ghost → C → Prop
  answers : Ghost → (c : C) → R c → Prop
  after : Ghost → (c : C) → R c → Ghost

namespace Program

variable {C : Type} {R : C → Type} {α β : Type}

/-- The program keeps the contract from the ghost on, and what it returns satisfies `Q`
together with the ghost then. A loop is given by an invariant of the ghost. -/
def wp (K : Contract C R) {α : Type} : Program C R α → (α → K.Ghost → Prop) → K.Ghost → Prop
  | .done a, Q, g => Q a g
  | .ask c k, Q, g => K.allows g c ∧ ∀ r, K.answers g c r → (k r).wp K Q (K.after g c r)
  | .poll c body k, Q, g => ∃ I : K.Ghost → Prop, I g ∧ ∀ g, I g → K.allows g c ∧
      ∀ r, K.answers g c r →
        (body r).wp K (fun again g => if again then I g else k.wp K Q g) (K.after g c r)

variable {K : Contract C R}

theorem wp_mono {p : Program C R α} {Q Q' : α → K.Ghost → Prop} (weaker : ∀ a g, Q a g → Q' a g)
    {g : K.Ghost} (holds : p.wp K Q g) : p.wp K Q' g := by
  induction p generalizing g with
  | done a => exact weaker a g holds
  | ask c k ih => exact ⟨holds.1, fun r answers => ih r weaker (holds.2 r answers)⟩
  | poll c body k ih_body ih =>
    rcases holds with ⟨I, start, turn⟩
    refine ⟨I, start, fun g inv => ⟨(turn g inv).1, fun r answers => ?_⟩⟩
    apply ih_body r _ ((turn g inv).2 r answers)
    intro again g
    cases again with
    | true => exact id
    | false => exact ih weaker

theorem wp_bind {p : Program C R α} {f : α → Program C R β} {Q : β → K.Ghost → Prop}
    {g : K.Ghost} (holds : p.wp K (fun a g => (f a).wp K Q g) g) : (p.bind f).wp K Q g := by
  induction p generalizing g with
  | done a => exact holds
  | ask c k ih => exact ⟨holds.1, fun r answers => ih r (holds.2 r answers)⟩
  | poll c body k _ ih =>
    rcases holds with ⟨I, start, turn⟩
    refine ⟨I, start, fun g inv => ⟨(turn g inv).1, fun r answers => ?_⟩⟩
    apply wp_mono _ ((turn g inv).2 r answers)
    intro again g
    cases again with
    | true => exact id
    | false => exact ih

/-- What is returned satisfies the postcondition. -/
theorem wp_returned {p : Program C R α} {Q : α → K.Ghost → Prop} {g : K.Ghost}
    (holds : p.wp K Q g) {a : α} (stands : p.head = .returned a) : Q a g := by
  cases p with
  | done b =>
    cases stands
    exact holds
  | ask c k => cases stands
  | poll c body k => cases stands

/-- A call is allowed, and each expected answer to it keeps the weakest precondition. -/
theorem wp_calls {p : Program C R α} {Q : α → K.Ghost → Prop} {g : K.Ghost} (holds : p.wp K Q g)
    {c : C} {k : R c → Program C R α} (stands : p.head = .calls c k) :
    K.allows g c ∧ ∀ r, K.answers g c r → (k r).wp K Q (K.after g c r) := by
  cases p with
  | done b => cases stands
  | ask c k =>
    cases stands
    exact holds
  | poll c body k =>
    cases stands
    rcases holds with ⟨I, start, turn⟩
    refine ⟨(turn g start).1, fun r answers => wp_bind ?_⟩
    apply wp_mono _ ((turn g start).2 r answers)
    intro again g
    cases again with
    | true => exact fun inv => ⟨I, inv, turn⟩
    | false => exact id

/-- With fewer answers to expect a program keeps the contract all the more. -/
theorem wp_fewer {answers : K.Ghost → (c : C) → R c → Prop}
    (fewer : ∀ g c r, answers g c r → K.answers g c r) {p : Program C R α}
    {Q : α → K.Ghost → Prop} {g : K.Ghost} (holds : p.wp K Q g) :
    p.wp { K with answers := answers } Q g := by
  induction p generalizing g with
  | done a => exact holds
  | ask c k ih =>
    exact ⟨holds.1, fun r expected => ih r (holds.2 r (fewer g c r expected))⟩
  | poll c body k ih_body ih =>
    rcases holds with ⟨I, start, turn⟩
    refine ⟨I, start, fun g inv => ⟨(turn g inv).1, fun r expected => ?_⟩⟩
    have kept := ih_body r ((turn g inv).2 r (fewer g c r expected))
    apply wp_mono _ kept
    intro again g
    cases again with
    | true => exact id
    | false => exact ih

/-! ### Programs in `do` notation -/

theorem wp_pure {a : α} {Q : α → K.Ghost → Prop} {g : K.Ghost} (holds : Q a g) :
    (pure a : Program C R α).wp K Q g := holds

theorem wp_seq {p : Program C R α} {f : α → Program C R β} {Q : β → K.Ghost → Prop}
    {g : K.Ghost} (holds : p.wp K (fun a g => (f a).wp K Q g) g) : (p >>= f).wp K Q g :=
  wp_bind holds

/-- What holds after the first part is what the rest begins with. -/
theorem wp_then {p : Program C R α} {f : α → Program C R β} {M : α → K.Ghost → Prop}
    {Q : β → K.Ghost → Prop} {g : K.Ghost} (first : p.wp K M g)
    (rest : ∀ a g', M a g' → (f a).wp K Q g') : (p >>= f).wp K Q g := wp_seq (wp_mono rest first)

/-- The first part ends at `g'`. -/
theorem wp_then_at {p : Program C R α} {f : α → Program C R β} {Q : β → K.Ghost → Prop}
    {g g' : K.Ghost} (first : p.wp K (fun _ after => after = g') g)
    (rest : ∀ a, (f a).wp K Q g') : (p >>= f).wp K Q g := by
  apply wp_then first
  rintro a _ rfl
  exact rest a

theorem wp_call {c : C} {Q : R c → K.Ghost → Prop} {g : K.Ghost} (allowed : K.allows g c)
    (next : ∀ r, K.answers g c r → Q r (K.after g c r)) :
    (call c : Program C R (R c)).wp K Q g := ⟨allowed, next⟩

theorem wp_call_seq {c : C} {f : R c → Program C R β} {Q : β → K.Ghost → Prop} {g : K.Ghost}
    (allowed : K.allows g c)
    (next : ∀ r, K.answers g c r → (f r).wp K Q (K.after g c r)) :
    (call c >>= f).wp K Q g := ⟨allowed, next⟩

/-- A loop whose turns keep an invariant of the ghost. -/
theorem wp_repeatCall {c : C} {body : R c → Program C R Bool} {Q : Unit → K.Ghost → Prop}
    {g : K.Ghost} (I : K.Ghost → Prop) (start : I g) (allowed : ∀ g, I g → K.allows g c)
    (turn : ∀ g, I g → ∀ r, K.answers g c r →
      (body r).wp K (fun again g => if again then I g else Q () g) (K.after g c r)) :
    (repeatCall c body).wp K Q g :=
  ⟨I, start, fun g inv => ⟨allowed g inv, turn g inv⟩⟩

/-- A loop over a list, of which each turn returns `f a` and changes the ghost by `step`. -/
theorem wp_forEach (body : α → Program C R β) (f : α → β) (step : K.Ghost → α → K.Ghost)
    (l : List α)
    (turn : ∀ a ∈ l, ∀ g, (body a).wp K (fun b g' => b = f a ∧ g' = step g a) g) (g : K.Ghost) :
    (forEach body l).wp K (fun bs g' => bs = l.map f ∧ g' = l.foldl step g) g := by
  induction l generalizing g with
  | nil => exact ⟨rfl, rfl⟩
  | cons a l ih =>
    apply wp_seq
    apply wp_mono _ (turn a List.mem_cons_self g)
    rintro _ _ ⟨rfl, rfl⟩
    apply wp_seq
    apply wp_mono _ (ih (fun a member => turn a (List.mem_cons_of_mem _ member)) (step g a))
    rintro _ _ ⟨rfl, rfl⟩
    exact ⟨rfl, rfl⟩

theorem wp_bind_iff {p : Program C R α} {f : α → Program C R β} {Q : β → K.Ghost → Prop}
    {g : K.Ghost} : (p.bind f).wp K Q g ↔ p.wp K (fun a g => (f a).wp K Q g) g := by
  refine ⟨fun holds => ?_, wp_bind⟩
  induction p generalizing g with
  | done a => exact holds
  | ask c k ih => exact ⟨holds.1, fun r answers => ih r (holds.2 r answers)⟩
  | poll c body k _ ih =>
    rcases holds with ⟨I, start, turn⟩
    refine ⟨I, start, fun g inv => ⟨(turn g inv).1, fun r answers => ?_⟩⟩
    apply wp_mono _ ((turn g inv).2 r answers)
    intro again g
    cases again with
    | true => exact id
    | false => exact ih

theorem seq_assoc {γ : Type} (p : Program C R α) (f : α → Program C R β)
    (h : β → Program C R γ) : (p >>= f) >>= h = p >>= fun a => f a >>= h := by
  show (p.bind f).bind h = p.bind fun a => (f a).bind h
  induction p with
  | done a => rfl
  | ask c k ih => exact congrArg (Program.ask c) (funext fun r => ih r f)
  | poll c body k _ ih => exact congrArg (Program.poll c body) (ih f)

/-! ### Programs that cannot be told apart -/

/-- Under the contract the programs meet the same specifications. -/
def Same (K : Contract C R) (p q : Program C R α) : Prop := ∀ Q g, p.wp K Q g ↔ q.wp K Q g

theorem Same.refl (K : Contract C R) (p : Program C R α) : Same K p p := fun _ _ => Iff.rfl

theorem Same.bind {p : Program C R α} {f f' : α → Program C R β}
    (rest : ∀ a, Same K (f a) (f' a)) : Same K (p >>= f) (p >>= f') := by
  intro Q g
  refine wp_bind_iff.trans (Iff.trans ⟨?_, ?_⟩ wp_bind_iff.symm)
  · exact wp_mono fun a g => (rest a Q g).mp
  · exact wp_mono fun a g => (rest a Q g).mpr

/-- What comes after a call has to agree only on the answers that are expected. -/
theorem Same.call {c : C} {f f' : R c → Program C R β}
    (rest : ∀ g r, K.answers g c r → Same K (f r) (f' r)) :
    Same K (call c >>= f) (call c >>= f') := by
  intro Q g
  refine and_congr_right fun _ => forall_congr' fun r => ?_
  exact imp_congr_right fun answers => rest g r answers Q _

/-! ### Properties of whole programs -/

/-- A property of programs that sequences keep. -/
structure Compositional (P : ∀ {α : Type}, Program C R α → Prop) : Prop where
  pure : ∀ {α : Type} (a : α), P (Pure.pure a : Program C R α)
  bind : ∀ {α β : Type} {p : Program C R α} {f : α → Program C R β},
    P p → (∀ a, P (f a)) → P (p >>= f)

theorem Compositional.ite {P : ∀ {α : Type}, Program C R α → Prop} {c : Prop} [Decidable c]
    {p q : Program C R α} (yes : P p) (no : P q) : P (if c then p else q) := by
  split
  · exact yes
  · exact no

theorem Compositional.forEach {P : ∀ {α : Type}, Program C R α → Prop} (comp : Compositional P)
    {body : α → Program C R β} (turn : ∀ a, P (body a)) (l : List α) : P (forEach body l) := by
  induction l with
  | nil => exact comp.pure []
  | cons a l ih => exact comp.bind (turn a) fun _ => comp.bind ih fun _ => comp.pure _

/-! ### Programs that come to an end -/

/-- Every loop of the program ends with an answer in `keep`. -/
def Settles (keep : ∀ c, R c → Prop) : {α : Type} → Program C R α → Prop
  | _, .done _ => True
  | _, .ask _ k => ∀ r, (k r).Settles keep
  | _, .poll c body k => (∀ r, (body r).Settles keep) ∧
      (∀ r, keep c r → body r = .done false) ∧ k.Settles keep

variable {keep : ∀ c, R c → Prop}

theorem settles_bind {p : Program C R α} {f : α → Program C R β} (first : p.Settles keep)
    (rest : ∀ a, (f a).Settles keep) : (p.bind f).Settles keep := by
  induction p with
  | done a => exact rest a
  | ask c k ih => exact fun r => ih r (first r) rest
  | poll c body k _ ih => exact ⟨first.1, first.2.1, ih first.2.2 rest⟩

theorem settles_compositional (keep : (c : C) → R c → Prop) :
    Compositional (fun {α : Type} (p : Program C R α) => p.Settles keep) :=
  ⟨fun _ => trivial, settles_bind⟩

/-- Whatever the answer, what is left of the program settles too. -/
theorem Settles.calls {p : Program C R α} (settles : p.Settles keep) {c : C}
    {k : R c → Program C R α} (stands : p.head = .calls c k) (r : R c) : (k r).Settles keep := by
  cases p with
  | done a => cases stands
  | ask c k =>
    cases stands
    exact settles r
  | poll c body k =>
    cases stands
    apply settles_bind (settles.1 r)
    intro again
    cases again with
    | true => exact settles
    | false => exact settles.2.2

/-- An answer in `keep` takes the program `p` to `p'`. -/
def Advances (keep : ∀ c, R c → Prop) (p' p : Program C R α) : Prop :=
  p.Settles keep ∧ ∃ c k r, p.head = .calls c k ∧ keep c r ∧ p' = k r

theorem Settles.acc {p : Program C R α} (settles : p.Settles keep) : Acc (Advances keep) p := by
  induction p with
  | done a =>
    refine ⟨_, fun p' advance => ?_⟩
    rcases advance with ⟨_, c, k, r, stands, _⟩
    cases stands
  | ask c k ih =>
    refine ⟨_, fun p' advance => ?_⟩
    rcases advance with ⟨_, c', k', r, stands, _, rfl⟩
    cases stands
    exact ih r (settles r)
  | poll c body k _ ih =>
    refine ⟨_, fun p' advance => ?_⟩
    rcases advance with ⟨_, c', k', r, stands, kept, rfl⟩
    cases stands
    -- the loop is left
    show Acc (Advances keep) ((body r).bind _)
    rw [settles.2.1 r kept]
    exact ih settles.2.2

theorem advances_wellFounded : WellFounded (Advances keep (C := C) (R := R) (α := α)) := by
  refine ⟨fun p => ?_⟩
  by_cases settles : p.Settles keep
  · exact settles.acc
  · exact ⟨_, fun p' advance => absurd advance.1 settles⟩

/-! ### Total correctness -/

/-- Under the contract every run of the program comes to an end, with `Q`: it makes calls that are
allowed, there is an answer to each of them, and what is left after any answer does the same. -/
inductive Returns (K : Contract C R) (Q : α → K.Ghost → Prop) : Program C R α → K.Ghost → Prop
  | returned {p : Program C R α} {g : K.Ghost} {a : α} : p.head = .returned a → Q a g →
      Returns K Q p g
  | calls {p : Program C R α} {g : K.Ghost} {c : C} {k : R c → Program C R α} :
      p.head = .calls c k → K.allows g c → (∃ r, K.answers g c r) →
      (∀ r, K.answers g c r → Returns K Q (k r) (K.after g c r)) → Returns K Q p g

theorem Returns.mono {Q Q' : α → K.Ghost → Prop} (weaker : ∀ a g, Q a g → Q' a g)
    {p : Program C R α} {g : K.Ghost} (returns : p.Returns K Q g) : p.Returns K Q' g := by
  induction returns with
  | returned stands holds => exact .returned stands (weaker _ _ holds)
  | calls stands allowed answered _ ih => exact .calls stands allowed answered ih

/-- A program that keeps its contract returns when its loops end with every answer, and every
call that is allowed can be answered. -/
theorem wp_returns (answered : ∀ g c, K.allows g c → ∃ r, K.answers g c r)
    {p : Program C R α} (settles : p.Settles fun _ _ => True) {Q : α → K.Ghost → Prop}
    {g : K.Ghost} (holds : p.wp K Q g) : p.Returns K Q g := by
  induction settles.acc generalizing g with
  | intro p _ ih =>
    cases stands : p.head with
    | returned a => exact .returned stands (wp_returned holds stands)
    | calls c k =>
      have calls := wp_calls holds stands
      refine .calls stands calls.1 (answered g c calls.1) fun r expected => ?_
      exact ih (k r) ⟨settles, c, k, r, stands, trivial, rfl⟩ (settles.calls stands r)
        (calls.2 r expected)

end Program

end DebianConf.Lib
