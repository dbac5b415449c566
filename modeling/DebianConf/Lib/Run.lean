import Mathlib.Order.WellFounded
import Mathlib.Data.Prod.Lex

/-!
# Runs of a labelled step function

`next s e` is the state after the step labelled `e`, or `none` when that step is not
possible in `s`. Whatever a scheduler or the environment decides is part of the label, so
`next` stays a function and a run is fixed by its log of labels. The rules below turn a fact
about one step into a fact about every run.
-/

namespace DebianConf.Lib

variable {σ ε : Type*}

/-- The runs of `next` from `init`: the log of labels and the state they lead to. -/
inductive Run (next : σ → ε → Option σ) (init : σ) : List ε → σ → Prop
  | nil : Run next init [] init
  | snoc {log : List ε} {s : σ} {e : ε} {s' : σ} :
      Run next init log s → next s e = some s' → Run next init (log ++ [e]) s'

/-- `s` is reached by some run. -/
def Reachable (next : σ → ε → Option σ) (init s : σ) : Prop := ∃ log, Run next init log s

/-- Executes a whole log, so that a concrete run can be evaluated. -/
def replay (next : σ → ε → Option σ) : σ → List ε → Option σ
  | s, [] => some s
  | s, e :: log => (next s e).bind fun s' => replay next s' log

/-- The number of steps of a log, executed from `s`, that satisfy `p` of the state before, of
the label and of the state after. -/
def occurrences (next : σ → ε → Option σ) (p : σ → ε → σ → Bool) : σ → List ε → Nat
  | _, [] => 0
  | s, e :: log =>
    match next s e with
    | none => 0
    | some s' => (if p s e s' then 1 else 0) + occurrences next p s' log

variable {next : σ → ε → Option σ} {init : σ}

theorem Run.replay {done : List ε} {s : σ} (run : Run next init done s) (log : List ε) {s' : σ}
    (h : replay next s log = some s') : Run next init (done ++ log) s' := by
  induction log generalizing done s with
  | nil =>
    cases h
    simpa using run
  | cons e log ih =>
    rw [Lib.replay] at h
    obtain ⟨mid, step, rest⟩ := Option.bind_eq_some_iff.mp h
    simpa using ih (run.snoc step) rest

/-- A log that executes, with a decidable fact about the state it ends in, is a run. -/
theorem run_of_replay (next : σ → ε → Option σ) (init : σ) (log : List ε) (p : σ → Prop)
    [DecidablePred p]
    (h : ((replay next init log).map fun s => decide (p s)) = some true) :
    ∃ s, Run next init log s ∧ p s := by
  obtain ⟨s, executed, holds⟩ := Option.map_eq_some_iff.mp h
  exact ⟨s, by simpa using Run.nil.replay log executed, by simpa using holds⟩

/-- An invariant of log and state that holds initially and is kept by each step holds after
every run. -/
theorem Run.invariant (I : List ε → σ → Prop) (start : I [] init)
    (step : ∀ {log s e s'}, I log s → next s e = some s' → I (log ++ [e]) s')
    {log : List ε} {s : σ} (run : Run next init log s) : I log s := by
  induction run with
  | nil => exact start
  | snoc _ fired ih => exact step ih fired

theorem Reachable.invariant (I : σ → Prop) (start : I init)
    (step : ∀ {s e s'}, I s → next s e = some s' → I s')
    {s : σ} (reached : Reachable next init s) : I s := by
  obtain ⟨log, run⟩ := reached
  exact run.invariant (fun _ s => I s) start step

/-- What holds of each step of a run, given the log before it, holds at every position of
the final log. -/
theorem Run.event (Q : List ε → ε → Prop)
    (step : ∀ {log s e s'}, Run next init log s → next s e = some s' → Q log e)
    {log : List ε} {s : σ} (run : Run next init log s) :
    ∀ before e after, log = before ++ e :: after → Q before e := by
  induction run with
  | nil =>
    intro before e after h
    simp at h
  | @snoc log s e s' run fired ih =>
    intro before x after h
    rcases List.eq_nil_or_concat after with rfl | ⟨init, last, rfl⟩
    · obtain ⟨rfl, same⟩ := List.append_inj' h rfl
      obtain rfl : e = x := by simpa using same
      exact step run fired
    · rw [List.concat_eq_append, ← List.cons_append, ← List.append_assoc] at h
      exact ih before x init (List.append_inj' h rfl).1

/-- Two systems are in lock step when an abstraction function takes each step of one, from a
reachable state, to the step of the other with the same label: they have the same logs. -/
theorem run_map_iff {τ : Type*} {next' : τ → ε → Option τ} (f : σ → τ)
    (step : ∀ {s}, Reachable next init s → ∀ e, next' (f s) e = (next s e).map f)
    (log : List ε) (t : τ) : Run next' (f init) log t ↔ ∃ s, Run next init log s ∧ f s = t := by
  constructor
  · intro run
    induction run with
    | nil => exact ⟨init, .nil, rfl⟩
    | @snoc log t e t' _ fired ih =>
      obtain ⟨s, before, rfl⟩ := ih
      rw [step ⟨log, before⟩] at fired
      obtain ⟨s', fired', same⟩ := Option.map_eq_some_iff.mp fired
      exact ⟨s', before.snoc fired', same⟩
  · intro given
    obtain ⟨s, run, rfl⟩ := given
    induction run with
    | nil => exact .nil
    | @snoc log s e s' before fired ih =>
      refine ih.snoc ?_
      rw [step ⟨log, before⟩, fired, Option.map_some]

/-! ## Counting steps -/

theorem replay_snoc {log : List ε} {s mid s' : σ} {e : ε} (executed : replay next s log = some mid)
    (fired : next mid e = some s') : replay next s (log ++ [e]) = some s' := by
  induction log generalizing s with
  | nil =>
    cases executed
    rw [List.nil_append, replay, fired]
    rfl
  | cons x log ih =>
    obtain ⟨s1, first, rest⟩ := Option.bind_eq_some_iff.mp executed
    rw [List.cons_append, replay, first]
    exact ih rest

theorem Run.replay_eq {log : List ε} {s : σ} (run : Run next init log s) :
    Lib.replay next init log = some s := by
  induction run with
  | nil => rfl
  | snoc _ fired ih => exact replay_snoc ih fired

theorem occurrences_snoc (p : σ → ε → σ → Bool) {log : List ε} {s mid s' : σ} {e : ε}
    (executed : replay next s log = some mid) (fired : next mid e = some s') :
    occurrences next p s (log ++ [e]) =
      occurrences next p s log + if p mid e s' then 1 else 0 := by
  induction log generalizing s with
  | nil =>
    cases executed
    simp [occurrences, fired]
  | cons x log ih =>
    obtain ⟨s1, first, rest⟩ := Option.bind_eq_some_iff.mp executed
    simp only [List.cons_append, occurrences, first]
    rw [ih rest, Nat.add_assoc]

/-- When each step of a run raises a measure of the state by one if it satisfies `p` and
leaves it alone otherwise, the measure counts the steps that satisfy `p`. -/
theorem Run.occurrences_eq (p : σ → ε → σ → Bool) (measure : σ → Nat) (start : measure init = 0)
    (counts : ∀ {s e s'}, Reachable next init s → next s e = some s' →
      measure s' = measure s + if p s e s' then 1 else 0)
    {log : List ε} {s : σ} (run : Run next init log s) :
    occurrences next p init log = measure s := by
  induction run with
  | nil => exact start.symm
  | @snoc log s e s' before fired ih =>
    rw [occurrences_snoc p before.replay_eq fired, ih, counts ⟨log, before⟩ fired]

/-- A step relation restricted to reachable states is well-founded when a measure of the
state into a well-founded order drops along it. -/
theorem wellFounded_of_measure {β : Type*} {r : β → β → Prop} (wf : WellFounded r)
    (measure : σ → β) (keep : ε → Prop)
    (drops : ∀ {s e s'}, Reachable next init s → keep e → next s e = some s' →
      r (measure s') (measure s)) :
    WellFounded fun s' s => Reachable next init s ∧ ∃ e, keep e ∧ next s e = some s' := by
  refine Subrelation.wf ?_ (InvImage.wf measure wf)
  rintro s' s ⟨reached, e, kept, fired⟩
  exact drops reached kept fired

end DebianConf.Lib
