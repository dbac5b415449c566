import DebianConf.Tasks.Invariant

/-!
# The table of the boot program

The ids and the task table of `main` (`root/preload_main.cpp:17-53`, `120-145`).
-/

namespace DebianConf.Tasks

/-- `task_id` (`preload_main.cpp:50-53`), without the bound `max_id`. -/
inductive BootId where
  | none | rootFs | sysFs | devFs | runFs | tmpFs | setupFs | allFs | acpi | hostname | deferred
  | readahead | udev | X | devSubfs | udevTrigger | dbus | procps | xfce4 | slim | initD
  | grpDesktop | grpNone | grpKrnFs | grpAllFs | grpFs
  deriving DecidableEq, Repr

instance : TaskId BootId where
  noneId := .none
  grpNoneId := .grpNone

/-- The static `tasks` of `main` (`preload_main.cpp:120-145`). -/
def bootTasks : List (TaskInfo BootId) :=
  [⟨.readahead, .grpNone, .none, .none⟩,
   ⟨.rootFs, .grpKrnFs, .none, .none⟩,
   ⟨.sysFs, .grpKrnFs, .none, .none⟩,
   ⟨.devFs, .grpKrnFs, .none, .none⟩,
   ⟨.tmpFs, .grpKrnFs, .none, .none⟩,
   ⟨.runFs, .grpKrnFs, .none, .none⟩,
   ⟨.deferred, .grpAllFs, .none, .none⟩,
   ⟨.hostname, .grpAllFs, .none, .none⟩,
   ⟨.allFs, .grpAllFs, .devFs, .none⟩,
   ⟨.setupFs, .grpAllFs, .grpKrnFs, .none⟩,
   ⟨.udev, .grpAllFs, .grpKrnFs, .none⟩,
   ⟨.acpi, .grpNone, .grpAllFs, .none⟩,
   ⟨.dbus, .grpNone, .grpAllFs, .none⟩,
   ⟨.slim, .grpDesktop, .acpi, .dbus⟩,
   ⟨.procps, .grpNone, .deferred, .none⟩,
   ⟨.initD, .grpNone, .grpAllFs, .grpDesktop⟩]

/-- The table of `main` meets what the scheduler expects of a table. -/
def bootTable : Table BootId where
  tasks := bootTasks
  distinct := by decide
  ne_none := by decide
  ne_grpNone := by decide
  ne_grp := by decide

theorem bootTable_noneNotGroup : bootTable.NoneNotGroup := by
  unfold Table.NoneNotGroup
  decide

theorem bootTable_parentsInOrder : bootTable.ParentsInOrder := by
  unfold Table.ParentsInOrder
  decide

theorem bootTable_present (i : bootTable.Ptr) : ¬ bootTable.Blocked i := by
  revert i
  unfold Table.Blocked Table.Absent
  decide

/-- The level of an entry above the entries without parents. -/
def bootRank (i : bootTable.Ptr) : Nat :=
  [0, 0, 0, 0, 0, 0, 0, 0, 1, 1, 1, 2, 2, 3, 1, 4].getD i.val 0

theorem bootTable_acyclic : bootTable.Acyclic := by
  have drops : ∀ i j, bootTable.DependsOn i j → bootRank j < bootRank i := by
    unfold Table.DependsOn Table.Refers
    decide
  intro i cycle
  have below : ∀ j, Relation.TransGen bootTable.DependsOn i j → bootRank j < bootRank i := by
    intro j path
    induction path with
    | single edge => exact drops _ _ edge
    | tail _ edge ih => exact (drops _ _ edge).trans ih
  exact lt_irrefl _ (below i cycle)

/-- A log of five threads, from their creation to the return of `start`: the last one falls asleep,
wakes up by itself, is woken by the thread that leaves `acpi` for it and later by every group that
gets done. -/
def bootPoolLog : List (Event 16) :=
  List.replicate 5 .create ++
  [.peek 0 (.task 0) none, .peek 1 (.task 1) none, .peek 2 (.task 2) none, .peek 3 (.task 3) none,
   .peek 4 (.task 4) none, .call 0 0, .call 1 1, .call 2 2, .call 3 3, .call 4 4,
   .ret 0 0, .ret 1 1, .ret 2 2, .ret 3 3, .ret 4 4,
   .peek 0 (.task 5) none, .peek 1 (.task 6) none, .peek 2 (.task 7) none, .peek 3 (.task 8) none,
   .peek 4 .wait none, .call 0 5, .call 1 6, .spurious 4, .call 2 7, .peek 4 .wait none, .call 3 8,
   .ret 0 5, .ret 1 6, .ret 2 7, .ret 3 8,
   .peek 0 (.task 9) (some 4), .peek 1 (.task 10) none, .peek 2 (.task 14) none,
   .peek 3 .wait none, .peek 4 .wait none, .call 0 9, .call 1 10, .call 2 14,
   .ret 0 9, .ret 1 10, .ret 2 14,
   .peek 0 .wait none, .peek 1 (.task 11) none, .peek 2 (.task 12) none, .peek 3 .wait none,
   .peek 4 .wait none, .peek 0 .wait none, .call 1 11, .call 2 12, .ret 1 11, .ret 2 12,
   .peek 1 .wait none, .peek 2 (.task 13) none, .call 2 13, .ret 2 13,
   .peek 2 (.task 15) none, .call 2 15, .ret 2 15,
   .peek 2 .null none, .peek 3 .null none, .peek 4 .null none, .peek 0 .null none, .join,
   .peek 1 .null none] ++
  List.replicate 4 .join

/-- The log of nine threads of which the first eight pick the entries without parents and the
last one falls asleep. -/
def bootSleepLog : List (Event bootTable.tasks.length) :=
  List.replicate 9 .create ++
    ((List.finRange bootTable.tasks.length).take 8).map (fun it => .peek it.val (.task it) none) ++
    [.peek 8 .wait none]

end DebianConf.Tasks
