import DebianConf.Boot.Machine
import DebianConf.Tasks.Termination
import Mathlib.Logic.Hydra
import Mathlib.Tactic.Abel

/-!
# The boot program comes to an end

A setup whose functions settle, as long as the answers are calm, cannot make steps forever: a
genuine step of the scheduler lowers the measure of the scheduler, and any other step replaces
the program of one actor by what is left of it, and by that of a new process at most.
-/

namespace DebianConf.Boot

open DebianConf.Lib DebianConf.Tasks Relation

/-- The answers without those that make `deferred_modules` read on, which reads 30 bytes at a
time. -/
def calm : (c : SysCall) → c.Answer → Prop
  | .read _ count, (got : Option (List UInt8)) => count = 30 → readCount got ≤ 0
  | _, _ => True

/-- The steps without spurious wake-ups and answers that are not calm. -/
def Label.Calm {n : Nat} : Label n → Prop
  | .sched e => e.isSpurious = false
  | .sys _ c r => calm c r
  | .gone _ _ => True

/-- What is left of a program under calm answers. -/
abbrev Goes : Prog Unit → Prog Unit → Prop := Program.Advances calm

instance : Std.Irrefl Goes := ⟨fun p => Program.advances_wellFounded.irrefl.irrefl p⟩

section
variable {α β : Type*}

theorem filterMap_cons_coe (f : α → Option β) (a : α) (l : List α) :
    ((a :: l).filterMap f : Multiset β) =
      ((f a).toList : Multiset β) + (l.filterMap f : Multiset β) := by
  rw [Multiset.coe_add, Multiset.coe_eq_coe, List.filterMap_cons]
  cases f a <;> rfl

/-- Changing one value of a function changes one element of its values on a list. -/
theorem filterMap_update [DecidableEq α] (f : α → Option β) {a : α} (x : Option β) {l : List α}
    (distinct : l.Nodup) (member : a ∈ l) :
    (l.filterMap (Function.update f a x) : Multiset β) + ((f a).toList : Multiset β) =
      (l.filterMap f : Multiset β) + (x.toList : Multiset β) := by
  induction l with
  | nil => cases member
  | cons b l ih =>
    have absent := (List.nodup_cons.mp distinct).1
    rw [filterMap_cons_coe, filterMap_cons_coe]
    rcases List.mem_cons.mp member with rfl | member
    · have rest : l.filterMap (Function.update f a x) = l.filterMap f := by
        apply List.filterMap_congr
        intro c there
        apply Function.update_of_ne
        rintro rfl
        exact absent there
      rw [rest, Function.update_self]
      abel
    · have other : b ≠ a := fun same => absent (same ▸ member)
      rw [Function.update_of_ne other, add_assoc, add_assoc,
        ih (List.nodup_cons.mp distinct).2 member]

end

section
variable {ID : Type} [DecidableEq ID] [TaskId ID]

/-- Every function settles, and `main` does. -/
structure Setup.Settles (S : Setup ID) : Prop where
  main : S.main.Settles calm
  fnc : ∀ it, (S.fnc it).Settles calm

variable {S : Setup ID} {log : List (Label S.table.tasks.length)} {s s' : State S}

/-- What is left of every program settles. -/
def AllSettle (s : State S) : Prop := ∀ a p, s.code a = some p → p.Settles calm

theorem allSettle_init (settles : S.Settles) : AllSettle (State.init S) := by
  intro a p here
  cases a with
  | main =>
    cases here
    exact settles.main
  | thread t => cases here
  | child j => cases here

theorem settles_update {code : Actor → Option (Prog Unit)}
    (all : ∀ a p, code a = some p → p.Settles calm) {a : Actor} {x : Option (Prog Unit)}
    (here : ∀ p, x = some p → p.Settles calm) :
    ∀ a' p, Function.update code a x a' = some p → p.Settles calm := by
  intro a' p present
  rw [Function.update_apply] at present
  split at present
  · exact here p present
  · exact all a' p present

theorem AllSettle.step (all : AllSettle s) (settles : S.Settles)
    {l : Label S.table.tasks.length} (step : Step s l s') : AllSettle s' := by
  cases step with
  | sched starting fired dispatched =>
    rcases dispatch_cases dispatched with ⟨t, it, _, rfl⟩ | ⟨t, it, _, _, rfl⟩ | ⟨_, rfl⟩
    · apply settles_update all
      rintro p ⟨⟩
      exact settles.fnc it
    · apply settles_update all
      rintro p ⟨⟩
    · exact all
  | @sys a c r p p' admitted here answered =>
    rcases Program.answer_eq_some answered with ⟨k, stands, rfl⟩
    have settled := all a p here
    have spawned : ∀ a' p, s.spawn a c r a' = some p → p.Settles calm := by
      unfold State.spawn
      split
      · next spawns =>
        obtain rfl := fork_of_spawns spawns
        apply settles_update all
        rw [here, Option.bind_some, Program.answer_of_head stands]
        rintro q ⟨⟩
        exact settled.calls stands inChild
      · exact all
    apply settles_update spawned
    rintro q ⟨⟩
    exact settled.calls stands r
  | gone replaces apart stands =>
    apply settles_update all
    rintro p ⟨⟩

theorem Run.allSettle (settles : S.Settles) (run : S.Run log s) : AllSettle s := by
  apply run.invariant (fun _ (s : State S) => AllSettle s) (allSettle_init settles)
  exact fun all fired => all.step settles (step_of_next fired)

/-! ## The measure -/

/-- Everyone who may have a program. -/
def State.actors (s : State S) : List Actor :=
  .main :: ((List.range s.sched.threads.length).map .thread ++ (List.range s.forked).map .child)

/-- What is left of all programs. -/
def State.programs (s : State S) : Multiset (Prog Unit) := (s.actors.filterMap s.code : List _)

omit [DecidableEq ID] in
theorem State.actors_nodup (s : State S) : s.actors.Nodup := by
  refine List.nodup_cons.mpr ⟨by simp, List.Nodup.append ?_ ?_ ?_⟩
  · exact List.nodup_range.map fun _ _ => Actor.thread.inj
  · exact List.nodup_range.map fun _ _ => Actor.child.inj
  · intro a first second
    rcases List.mem_map.mp first with ⟨t, _, rfl⟩
    rcases List.mem_map.mp second with ⟨j, _, same⟩
    cases same

omit [DecidableEq ID] in
theorem Wired.mem_actors (wired : Wired s) {a : Actor} (here : s.code a ≠ none) :
    a ∈ s.actors := by
  cases a with
  | main => exact List.mem_cons_self
  | thread t =>
    refine List.mem_cons_of_mem _ (List.mem_append_left _ (List.mem_map_of_mem ?_))
    rw [List.mem_range]
    by_contra beyond
    apply here
    rw [wired.threads t, inside, List.getElem?_eq_none (Nat.le_of_not_lt beyond)]
    rfl
  | child j =>
    refine List.mem_cons_of_mem _ (List.mem_append_right _ (List.mem_map_of_mem ?_))
    rw [List.mem_range]
    by_contra unborn
    exact here (wired.children j (Nat.le_of_not_lt unborn))

/-- The measure of the scheduler first, then the programs. -/
def State.measure (s : State S) : (ℕ ×ₗ ℕ ×ₗ ℕ) × Multiset (Prog Unit) :=
  (Tasks.measure s.sched, s.programs)

theorem measure_wellFounded :
    WellFounded (Prod.Lex (· < · : (ℕ ×ₗ ℕ ×ₗ ℕ) → (ℕ ×ₗ ℕ ×ₗ ℕ) → Prop) (CutExpand Goes)) :=
  wellFounded_lt.prod_lex Program.advances_wellFounded.cutExpand

omit [DecidableEq ID] in
/-- The program of one actor is replaced by programs it goes to. -/
theorem programs_update (wired : Wired s) {a : Actor} {p : Prog Unit} (here : s.code a = some p)
    {x : Option (Prog Unit)} (goes : ∀ q, x = some q → Goes q p)
    {more : Multiset (Prog Unit)} (spawned : ∀ q ∈ more, Goes q p) :
    CutExpand Goes ((s.actors.filterMap (Function.update s.code a x) : Multiset _) + more)
      s.programs := by
  have member := wired.mem_actors (a := a) (by rw [here]; simp)
  have changed := filterMap_update s.code x s.actors_nodup member
  refine ⟨(x.toList : Multiset _) + more, p, ?_, ?_⟩
  · intro q within
    rcases Multiset.mem_add.mp within with next | child
    · exact goes q (Option.mem_toList.mp (Multiset.mem_coe.mp next))
    · exact spawned q child
  · rw [here] at changed
    rw [add_right_comm, ← add_assoc]
    exact congrArg (· + more) changed

omit [DecidableEq ID] in
theorem programs_replace (wired : Wired s) {a : Actor} {p : Prog Unit} (here : s.code a = some p)
    {x : Option (Prog Unit)} (goes : ∀ q, x = some q → Goes q p) :
    CutExpand Goes (State.programs { s with code := Function.update s.code a x }) s.programs := by
  rw [← add_zero (State.programs { s with code := Function.update s.code a x })]
  exact programs_update wired here goes (by simp)

omit [DecidableEq ID] in
/-- A new process is one more actor. -/
theorem actors_spawn {code : Actor → Option (Prog Unit)} {q : Prog Unit}
    (new : code (.child s.forked) = some q) :
    (State.programs { s with code := code, forked := s.forked + 1 } : Multiset (Prog Unit)) =
      (s.actors.filterMap code : Multiset _) + ({q} : Multiset _) := by
  have actors : State.actors { s with code := code, forked := s.forked + 1 } =
      s.actors ++ [.child s.forked] := by
    simp [State.actors, List.range_succ]
  rw [State.programs, actors, List.filterMap_append, ← Multiset.coe_add]
  simp [new]

omit [DecidableEq ID] in
theorem unborn_not_mem_actors : Actor.child s.forked ∉ s.actors := by
  simp [State.actors]

/-- Calm steps lower the measure. -/
theorem Step.measure_lt (wired : Wired s) (all : AllSettle s) (inv : Inv s.sched)
    {l : Label S.table.tasks.length} (step : Step s l s') (calm : l.Calm) :
    Prod.Lex (· < ·) (CutExpand Goes) s'.measure s.measure := by
  cases step with
  | sched starting fired dispatched =>
    exact Prod.Lex.left _ _ (inv.measure_lt (inv.step fired) calm)
  | @sys a c r p p' admitted here answered =>
    apply Prod.Lex.right
    rcases Program.answer_eq_some answered with ⟨k, stands, rfl⟩
    have advance : Goes (k r) p := ⟨all a p here, c, k, r, stands, calm, rfl⟩
    have goes : ∀ q, some (k r) = some q → Goes q p := fun q same => Option.some.inj same ▸ advance
    by_cases spawns : c.spawns r = true
    · obtain rfl := fork_of_spawns spawns
      have born : a ≠ .child s.forked := by
        rintro rfl
        rw [wired.children _ (Nat.le_refl _)] at here
        cases here
      have child : Goes (k inChild) p := ⟨all a p here, _, k, inChild, stands, trivial, rfl⟩
      have spawned : s.spawn a .fork r =
          Function.update s.code (.child s.forked) (some (k inChild)) := by
        rw [State.spawn, if_pos spawns, here, Option.bind_some, Program.answer_of_head stands]
      have new : Function.update (s.spawn a .fork r) a (some (k r)) (.child s.forked) =
          some (k inChild) := by
        rw [Function.update_of_ne (Ne.symm born), spawned, Function.update_self]
      have known : s.actors.filterMap (Function.update (s.spawn a .fork r) a (some (k r))) =
          s.actors.filterMap (Function.update s.code a (some (k r))) := by
        apply List.filterMap_congr
        intro b member
        have old : b ≠ .child s.forked := fun same => unborn_not_mem_actors (same ▸ member)
        rw [Function.update_apply, Function.update_apply, spawn_of_ne old]
      rw [if_pos spawns, actors_spawn new, known]
      apply programs_update wired here goes
      intro q member
      rw [Multiset.mem_singleton.mp member]
      exact child
    · have same : s.spawn a c r = s.code := if_neg spawns
      rw [if_neg spawns, same]
      exact programs_replace wired here goes
  | @gone a c replaces apart stands =>
    apply Prod.Lex.right
    rcases Option.bind_eq_some_iff.mp stands with ⟨p, here, _⟩
    exact programs_replace wired here (by simp)

end

end DebianConf.Boot
