import Mathlib.Data.List.TakeWhile

/-!
# Checked access to a block of memory

Scans and stores that fail at an index outside of the block. A load is `mem[p]?`. A program
written with them returns a result exactly when all it reads and writes is in the block.
-/

namespace DebianConf.Lib

variable {α : Type*}

/-- `while (p != limit && cond(*p)) ++p;`. Without a limit the scan relies on a symbol in the
block to stop at. -/
def advance (cond : α → Bool) (limit : Option Nat) (mem : List α) (p : Nat) : Option Nat :=
  if limit = some p then some p
  else
    match _here : mem[p]? with
    | none => none
    | some x => if cond x then advance cond limit mem (p + 1) else some p
termination_by mem.length - p
decreasing_by
  obtain ⟨inside, -⟩ := List.getElem?_eq_some_iff.mp _here
  omega

/-- `mem[p] = x;` -/
def store (mem : List α) (p : Nat) (x : α) : Option (List α) :=
  if p < mem.length then some (mem.set p x) else none

/-- `memcpy(mem + p, xs, …)` -/
def storeAll (mem : List α) (p : Nat) (xs : List α) : Option (List α) :=
  if p + xs.length ≤ mem.length then some (mem.take p ++ (xs ++ mem.drop (p + xs.length)))
  else none

theorem storeAll_front {front back xs : List α} {p : Nat} (at_front : front.length = p)
    (inside : xs.length ≤ back.length) :
    storeAll (front ++ back) p xs = some (front ++ (xs ++ back.drop xs.length)) := by
  subst at_front
  rw [storeAll, if_pos (by simpa using inside), List.take_left, ← List.drop_drop, List.drop_left]

theorem set_middle (front : List α) (x y : α) (back : List α) :
    (front ++ x :: back).set front.length y = front ++ y :: back := by
  simp

theorem get_middle (front : List α) (x : α) (back : List α) :
    (front ++ x :: back)[front.length]? = some x := by
  simp

theorem get_past (front : List α) (x : α) (back : List α) (k : Nat) :
    (front ++ x :: back)[front.length + 1 + k]? = back[k]? := by
  rw [List.getElem?_append_right (by omega), Nat.add_assoc, Nat.add_sub_cancel_left,
    Nat.add_comm 1, List.getElem?_cons_succ]

theorem store_middle (front : List α) (x y : α) (back : List α) :
    store (front ++ x :: back) front.length y = some (front ++ y :: back) := by
  rw [store, if_pos (by simp), set_middle]

theorem store_some {mem mem' : List α} {p : Nat} {x : α} (stored : store mem p x = some mem') :
    p < mem.length ∧ mem' = mem.set p x := by
  unfold store at stored
  split at stored
  · next inside =>
    cases stored
    exact ⟨inside, rfl⟩
  · cases stored

section
variable {cond : α → Bool} {limit : Option Nat} {mem front rest : List α} {p : Nat}

theorem getElem?_of_drop {x : α} (there : mem.drop p = x :: rest) : mem[p]? = some x := by
  rw [← List.head?_drop, there, List.head?_cons]

theorem drop_of_drop (there : mem.drop p = front ++ rest) :
    mem.drop (p + front.length) = rest := by
  rw [← List.drop_drop, there, List.drop_left]

theorem advance_limit (reached : limit = some p) : advance cond limit mem p = some p := by
  rw [advance, if_pos reached]

/-- One turn of the loop. -/
theorem advance_step {x : α} (open_end : limit ≠ some p) (here : mem[p]? = some x) :
    advance cond limit mem p = if cond x then advance cond limit mem (p + 1) else some p := by
  rw [advance, if_neg open_end]
  split
  · next nothing =>
    rw [here] at nothing
    cases nothing
  · next y same =>
    rw [here] at same
    cases same
    rfl

/-- A scan runs over symbols that satisfy the condition, up to the limit. -/
theorem advance_front (there : mem.drop p = front ++ rest) (all : ∀ x ∈ front, cond x = true)
    (below : ∀ q, limit = some q → p + front.length ≤ q) :
    advance cond limit mem p = advance cond limit mem (p + front.length) := by
  induction front generalizing p with
  | nil => rfl
  | cons x front ih =>
    have open_end : limit ≠ some p := by
      intro reached
      have bound := below p reached
      rw [List.length_cons] at bound
      omega
    have next : mem.drop (p + 1) = front ++ rest := by
      rw [← List.drop_drop, there]
      rfl
    have length : p + (x :: front).length = p + 1 + front.length := by
      rw [List.length_cons]
      omega
    rw [advance_step open_end (getElem?_of_drop there), if_pos (all x List.mem_cons_self),
      ih next (fun y member => all y (List.mem_cons_of_mem x member)) (by rwa [← length]), length]

/-- A scan that ends does not go back, and ends at its limit or at a symbol that does not satisfy
the condition. -/
theorem advance_some {q : Nat} (ended : advance cond limit mem p = some q) :
    p ≤ q ∧ (limit = some q ∨ ∃ x, mem[q]? = some x ∧ cond x = false) := by
  induction left : mem.length - p using Nat.strong_induction_on generalizing p with
  | _ n ih =>
    by_cases reached : limit = some p
    · rw [advance_limit reached] at ended
      cases ended
      exact ⟨Nat.le_refl _, Or.inl reached⟩
    · cases here : mem[p]? with
      | none =>
        rw [advance, if_neg reached] at ended
        split at ended
        · cases ended
        · next x same =>
          rw [here] at same
          cases same
      | some x =>
        obtain ⟨inside, -⟩ := List.getElem?_eq_some_iff.mp here
        rw [advance_step reached here] at ended
        cases met : cond x with
        | true =>
          rw [met, if_pos rfl] at ended
          obtain ⟨forward, stop⟩ := ih (mem.length - (p + 1)) (by omega) ended rfl
          exact ⟨by omega, stop⟩
        | false =>
          rw [met] at ended
          cases ended
          exact ⟨Nat.le_refl _, Or.inr ⟨x, here, met⟩⟩

/-- A scan to the end of the block. -/
theorem advance_to_end (inside : p ≤ mem.length) : advance cond (some mem.length) mem p =
    some (p + ((mem.drop p).takeWhile cond).length) := by
  have there : mem.drop p = (mem.drop p).takeWhile cond ++ (mem.drop p).dropWhile cond :=
    List.takeWhile_append_dropWhile.symm
  have length := congrArg List.length there
  rw [List.length_drop, List.length_append] at length
  rw [advance_front there (fun x member => List.mem_takeWhile_imp member) (by simp; omega)]
  by_cases ended : p + ((mem.drop p).takeWhile cond).length = mem.length
  · exact advance_limit (congrArg some ended.symm)
  · cases stop : (mem.drop p).dropWhile cond with
    | nil =>
      rw [stop, List.length_nil] at length
      omega
    | cons x rest =>
      have unmet : ¬ cond x = true := by
        have head := List.dropWhile_get_zero_not cond (mem.drop p) (by simp [stop])
        simpa [stop] using head
      have here : mem[p + ((mem.drop p).takeWhile cond).length]? = some x :=
        getElem?_of_drop ((drop_of_drop there).trans stop)
      rw [advance_step (by simpa using Ne.symm ended) here, if_neg unmet]

/-- A scan without a limit stops at the first symbol that does not satisfy the condition. -/
theorem advance_to_stop {x : α} (there : mem.drop p = front ++ x :: rest)
    (all : ∀ y ∈ front, cond y = true) (unmet : cond x = false) :
    advance cond none mem p = some (p + front.length) := by
  have here : mem[p + front.length]? = some x := getElem?_of_drop (drop_of_drop there)
  rw [advance_front there all (by simp), advance_step (by simp) here, unmet]
  rfl

end

end DebianConf.Lib
