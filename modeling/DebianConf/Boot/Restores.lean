import DebianConf.Boot.Ledger
import DebianConf.Boot.Shapes

/-!
# What the functions leave behind

Every task function keeps the rules of the ledger and leaves it as it found it, except for
descriptor 0, which `open` may return and the functions take for an error. `main` keeps the rules
until it becomes `init`.
-/

namespace DebianConf.Boot

open DebianConf.Lib DebianConf.SysLinux DebianConf.Preload DebianConf.Tasks

/-! ## The task functions -/

/-- The process that is started is waited for, if that is asked for. In the new process nothing
else is called than `execv` and `_exit`. -/
theorem wp_launch (wait : Bool) (argv : List CStr) {g : Ledger} (parent : g.role ≠ .child) :
    (launch wait argv false).wp rules
      (fun _ g' => g' = g ∨ ∃ pid, wait = false ∧ g' = { g with children := pid :: g.children })
      g := by
  unfold launch
  rw [if_neg Bool.false_ne_true]
  refine Program.wp_call_seq ⟨may parent rfl, trivial⟩ fun (pid : Int) answers => ?_
  extract_lets next
  have goes_on : ∀ status (g' : Ledger) (Q : Int → Ledger → Prop), pid ≠ 0 → Q status g' →
      (next status).wp rules Q g' := by
    intro status g' Q parent' post
    show Program.wp rules (if pid = 0 then _ else _) _ _
    rw [if_neg parent']
    exact post
  show Program.wp rules _ _
    (if pid = 0 then { g with role := .child, children := [] }
      else if pid > 0 then { g with children := pid :: g.children } else g)
  have known : -1 ≤ pid := answers.2
  rcases Int.lt_trichotomy pid 0 with failed | rfl | positive
  · obtain rfl : pid = -1 := by omega
    refine Program.wp_call_seq ⟨may parent rfl, trivial⟩ fun _ _ => ?_
    exact goes_on (-1) g _ (by decide) (Or.inl rfl)
  · refine Program.wp_call_seq ⟨rfl, trivial⟩ fun _ _ => ?_
    exact ⟨⟨rfl, trivial⟩, fun r => r.elim⟩
  · rw [if_neg (show ¬ pid = -1 by omega), if_pos positive,
      if_neg (show ¬ pid = 0 by omega), if_pos positive]
    cases wait with
    | true =>
      refine Program.wp_call_seq ⟨may parent rfl, List.mem_cons_self⟩ fun status _ => ?_
      apply goes_on status _ _ (by omega)
      refine Or.inl ?_
      show { g with children := (pid :: g.children).erase pid } = g
      rw [List.erase_cons_head]
    | false => exact goes_on 0 _ _ (by omega) (Or.inr ⟨pid, rfl, rfl⟩)

theorem keeps_launch (argv : List CStr) : Keeps (launch true argv false) := by
  intro g parent
  apply Program.wp_mono _ (wp_launch true argv parent)
  rintro _ g' (rfl | ⟨_, waits, _⟩)
  · exact Ledger.Same.refl g'
  · cases waits

theorem keeps_executeArg (list : List CStr) : Keeps (executeArg list true true) :=
  Program.Compositional.ite (Keeps.bind (Keeps.sys rfl) fun _ => Keeps.pure (-1))
    (keeps_launch list)

theorem keeps_run (list : List String) : Keeps (run list) :=
  (keeps_executeArg _).bind fun _ => Keeps.pure ()

theorem Keeps.checkZero {p : Prog Int} (keeps : Keeps p) (msg : CStr) : Keeps (checkZero p msg) :=
  checkZero_shape keeps_compositional keeps (Keeps.sys rfl)

/-- A stream that is used and closed leaves no trace. -/
theorem wp_fclose {α : Type} {s : Nat} {next : Prog α} {Q : α → Ledger → Prop} {g : Ledger}
    (parent : g.role ≠ .child) (holds : next.wp rules Q g) :
    (fclose s >>= fun _ => next).wp rules Q { g with streams := s :: g.streams } := by
  refine Program.wp_call_seq ⟨may parent rfl, List.mem_cons_self⟩ fun _ _ => ?_
  show next.wp rules Q { g with streams := (s :: g.streams).erase s }
  rw [List.erase_cons_head]
  exact holds

theorem keeps_readHostFile : Keeps readHostFile := by
  intro g parent
  refine Program.wp_call_seq ⟨may parent rfl, trivial⟩ fun stream _ => ?_
  cases stream with
  | none => exact Keeps.bind (Keeps.sys rfl) (fun _ => Keeps.pure none) g parent
  | some pFile =>
    refine Program.wp_call_seq ⟨may parent rfl, List.mem_cons_self⟩ fun got _ => ?_
    exact wp_fclose parent (Keeps.pure (some got) g parent)

theorem keeps_clearFile (path : CStr) : Keeps (clearFile path) := by
  intro g parent
  refine Program.wp_call_seq ⟨may parent rfl, trivial⟩ fun stream _ => ?_
  cases stream with
  | none => exact Keeps.sys rfl g parent
  | some pFile =>
    refine Program.wp_call_seq ⟨may parent rfl, List.mem_cons_self⟩ fun _ _ => ?_
    refine Program.wp_call ⟨may parent rfl, List.mem_cons_self⟩ fun _ _ => ?_
    show g.Same { g with streams := (pFile :: g.streams).erase pFile }
    rw [List.erase_cons_head]
    exact Ledger.Same.refl g

/-! ## Priorities -/

/-- Afterwards the priority may be another, and the old one is known if it is. -/
theorem wp_setPriorityTo {extreme : Int → Prog Int}
    (plain : ∀ policy (g : Ledger), g.role ≠ .child →
      (extreme policy).wp rules (fun _ g' => g' = g) g)
    {g : Ledger} (parent : g.role ≠ .child) : (setPriorityTo extreme).wp rules
      (fun old g' => ∃ p refused, g' = g.at p refused ∧ (g.refused = true → refused = true) ∧
        old.getD p = g.priority) g := by
  refine Program.wp_call_seq ⟨may parent rfl, trivial⟩ fun param answers => ?_
  cases param with
  | none => exact ⟨g.priority, g.refused, rfl, id, rfl⟩
  | some param =>
    rcases param with ⟨policy, priority⟩
    have same : priority = g.priority := answers.2 _ rfl
    apply Program.wp_then_at (plain policy g parent)
    intro prio
    refine Program.wp_call_seq ⟨may parent rfl, trivial⟩ fun (r : Int) _ => ?_
    show ∃ p refused, (if r = 0 then { g with priority := prio }
      else if prio = g.base then { g with refused := true } else g) = _ ∧ _
    split
    · exact ⟨prio, g.refused, rfl, id, same⟩
    · split
      · exact ⟨g.priority, true, rfl, fun _ => rfl, same⟩
      · exact ⟨g.priority, g.refused, rfl, id, same⟩

/-- The priority that was saved is set again, or this is refused. -/
theorem wp_setPriority {old : Option Int} {prio : Int} {refused : Bool} {g g' : Ledger}
    (parent : g.role ≠ .child) (keeps : g.refused = true → refused = true)
    (saved : old.getD prio = g.priority) (same : (g.at prio refused).Same g') :
    (setPriority old).wp rules (fun _ g'' => ∃ p r, (g.at p r).Same g'' ∧
      (g.refused = true → r = true) ∧ (g.Level → (g.at p r).Level)) g' := by
  rcases same with ⟨k, rfl⟩
  cases old with
  | none =>
    obtain rfl : prio = g.priority := saved
    exact ⟨g.priority, refused, ⟨k, rfl⟩, keeps, Or.imp_left keeps⟩
  | some p =>
    obtain rfl : p = g.priority := saved
    refine Program.wp_call_seq ⟨may parent rfl, trivial⟩ fun (r : Int) _ => ?_
    by_cases done : r = 0
    · refine ⟨g.priority, refused, ⟨k, if_pos done⟩, keeps, Or.imp_left keeps⟩
    · by_cases first : g.priority = g.base
      · refine ⟨prio, true, ⟨k, ?_⟩, fun _ => rfl, fun _ => Or.inl rfl⟩
        exact (if_neg done).trans (if_pos first)
      · refine ⟨prio, refused, ⟨k, ?_⟩, keeps, fun level => ?_⟩
        · exact (if_neg done).trans (if_neg first)
        · exact Or.inl (keeps (level.resolve_right first))

/-! ## Descriptors and mappings -/

theorem keeps_readaheadFile (failCount : Nat) (dt : CStr) :
    Keeps (readaheadFile failCount dt) := by
  intro g parent
  refine Program.wp_call_seq ⟨may parent rfl, trivial⟩ fun (fd : Int) answers => ?_
  show Program.wp rules _ _ (if fd = -1 then g else { g with fds := fd :: g.fds })
  split
  · next positive =>
    rw [if_neg (show ¬ fd = -1 by omega)]
    have here : fd ∈ fd :: g.fds := List.mem_cons_self
    refine Program.wp_call_seq ⟨may parent rfl, here⟩ fun size _ => ?_
    refine Program.wp_call_seq ⟨may parent rfl, here⟩ fun _ _ => ?_
    refine Program.wp_call_seq ⟨may parent rfl, here⟩ fun _ _ => ?_
    refine Program.wp_call_seq ⟨may parent rfl, here⟩ fun _ _ => ?_
    exact ((Ledger.Same.refl _).close).2
  · next other =>
    apply Program.wp_pure
    split
    · exact Ledger.Same.refl g
    · -- `open` has returned descriptor 0, which is taken for an error
      have known : -1 ≤ fd := answers.2
      obtain rfl : fd = 0 := by omega
      exact ⟨1, rfl⟩

theorem keeps_readaheadFiles (failCount : Nat) (paths : List CStr) :
    Keeps (readaheadFiles failCount paths) := by
  induction paths generalizing failCount with
  | nil => exact Keeps.pure failCount
  | cons dt rest ih => exact (keeps_readaheadFile failCount dt).bind ih

/-- The ledger with the members of `preload_parser` open. -/
def Ledger.hold (g : Ledger) (p : Mapped) : Ledger :=
  { g with
    fds := if p.file = -1 then g.fds else p.file :: g.fds
    maps := match p.m with
      | some m => (m.addr, m.size) :: g.maps
      | none => g.maps }

theorem wp_openFd (path : CStr) (flag : Nat) {g : Ledger} (parent : g.role ≠ .child) :
    (openFd path flag).wp rules (fun fd g' => -1 ≤ fd ∧ g' = g.hold ⟨fd, none⟩) g := by
  refine Program.wp_call_seq ⟨may parent rfl, trivial⟩ fun (fd : Int) answers => ?_
  show Program.wp rules _ _ (if fd = -1 then g else { g with fds := fd :: g.fds })
  by_cases failed : fd = -1
  · rw [if_pos failed, if_pos failed]
    refine Program.wp_call_seq ⟨may parent rfl, trivial⟩ fun _ _ => ⟨answers.2, ?_⟩
    show g = { g with fds := if fd = -1 then g.fds else fd :: g.fds, maps := g.maps }
    rw [if_pos failed]
  · rw [if_neg failed, if_neg failed]
    refine ⟨answers.2, ?_⟩
    show _ = { g with fds := if fd = -1 then g.fds else fd :: g.fds, maps := g.maps }
    rw [if_neg failed]

theorem wp_getFullMap {fd : Int} {g : Ledger} (parent : g.role ≠ .child)
    (opened : fd ≠ -1) : (getFullMap fd).wp rules
      (fun m g' => g' = g.hold ⟨fd, m⟩) (g.hold ⟨fd, none⟩) := by
  have here : fd ∈ (g.hold ⟨fd, none⟩).fds := by
    show fd ∈ if fd = -1 then g.fds else fd :: g.fds
    rw [if_neg opened]
    exact List.mem_cons_self
  refine Program.wp_call_seq ⟨may parent rfl, here⟩ fun size _ => ?_
  refine Program.wp_call_seq ⟨may parent rfl, here⟩ fun m _ => ?_
  cases m with
  | none => exact Program.wp_call_seq ⟨may parent rfl, trivial⟩ fun _ _ => Program.wp_pure rfl
  | some m => exact Program.wp_pure rfl

theorem wp_preloadReadahead (fname : CStr) {g : Ledger} (parent : g.role ≠ .child) :
    (preloadReadahead fname).wp rules (fun r g' => (g.hold r.1).Same g') g := by
  apply Program.wp_then (wp_openFd fname oRdonly parent)
  rintro fd _ ⟨_, rfl⟩
  split
  · next opened =>
    apply Program.wp_then (wp_getFullMap parent opened)
    rintro m _ rfl
    cases m with
    | none => exact Ledger.Same.refl _
    | some m =>
      apply Program.wp_seq
      exact keeps_readaheadFiles 0 _ (g.hold ⟨fd, some m⟩) parent
  · exact Ledger.Same.refl _

theorem wp_destroy (p : Mapped) {g g' : Ledger} (parent : g'.role ≠ .child)
    (same : (g.hold p).Same g') : p.destroy.wp rules (fun _ g'' => g.Same g'') g' := by
  have closes : ∀ g', g'.role ≠ .child → Ledger.Same (g.hold ⟨p.file, none⟩) g' →
      (if p.file ≠ -1 then close p.file else pure ()).wp rules (fun _ g'' => g.Same g'') g' := by
    intro g' parent same
    split
    · next opened =>
      have held : Ledger.Same { g with fds := p.file :: g.fds } g' := by
        have shape : g.hold ⟨p.file, none⟩ = { g with fds := p.file :: g.fds } := by
          show { g with fds := if p.file = -1 then g.fds else p.file :: g.fds } = _
          rw [if_neg opened]
        exact shape ▸ same
      exact Program.wp_call ⟨may parent rfl, held.close.1⟩ fun _ _ => held.close.2
    · next failed =>
      have shape : g.hold ⟨p.file, none⟩ = g := by
        show { g with fds := if p.file = -1 then g.fds else p.file :: g.fds } = _
        rw [if_pos (by simpa using failed)]
      exact shape ▸ same
  unfold Mapped.destroy
  rcases p with ⟨file, m⟩
  cases m with
  | none => exact closes g' parent same
  | some m =>
    rcases same with ⟨k, rfl⟩
    refine Program.wp_call_seq ⟨may parent rfl, List.mem_cons_self⟩ fun _ _ => ?_
    refine closes (Ledger.after { g.hold ⟨file, some m⟩ with
      fds := List.replicate k 0 ++ (g.hold ⟨file, some m⟩).fds } (.munmap m.addr m.size) ())
      parent ⟨k, ?_⟩
    simp [Ledger.after, Ledger.hold]

/-! ## The table -/

/-- From any thread the program keeps the rules and leaves the ledger alike. -/
def Restores {α : Type} (p : Prog α) : Prop :=
  ∀ g : Ledger, g.role ≠ .child → p.wp rules (fun _ g' => g.Alike g') g

theorem Keeps.restores {α : Type} {p : Prog α} (keeps : Keeps p) : Restores p :=
  fun g parent => Program.wp_mono (fun _ _ same => same.alike) (keeps g parent)

theorem restores_readahead : Restores readahead := by
  intro g parent
  apply Program.wp_then (wp_setPriorityTo (fun _ _ => wp_plain rfl) parent)
  rintro old _ ⟨prio, refused, rfl, keeps, saved⟩
  apply Program.wp_then
    (wp_preloadReadahead _ (show (g.at prio refused).role ≠ .child from parent))
  rintro ⟨p, failCount⟩ g' same
  apply Program.wp_then (wp_setPriority (g := g.hold p) parent keeps saved same)
  rintro _ g'' ⟨prio', refused', held, keeps', level⟩
  apply Program.wp_mono _ (wp_destroy (g := g.at prio' refused') p (held.parent parent) held)
  exact fun _ _ same => ⟨prio', refused', same, keeps', level⟩

theorem restores_deferredModules : Restores deferredModules := by
  intro g parent
  apply Program.wp_then (wp_setPriorityTo (fun _ _ => wp_plain rfl) parent)
  rintro old _ ⟨prio, refused, rfl, keeps, saved⟩
  refine Program.wp_call_seq ⟨may parent rfl, trivial⟩ fun (fd : Int) answers => ?_
  extract_lets after
  have ends : ∀ g', (g.at prio refused).Same g' →
      (after ()).wp rules (fun _ g'' => g.Alike g'') g' := by
    intro g' same
    apply Program.wp_then (wp_setPriority parent keeps saved same)
    rintro _ g'' ⟨prio', refused', same, keeps', level⟩
    apply Program.wp_mono _ (keeps_run _ g'' (same.parent parent))
    exact fun _ _ later => ⟨prio', refused', same.trans later, keeps', level⟩
  show Program.wp rules _ _ (if fd = -1 then g.at prio refused
    else { g.at prio refused with fds := fd :: g.fds })
  split
  · next positive =>
    rw [if_neg (show ¬ fd = -1 by omega)]
    apply Program.wp_seq
    -- nothing is left open from one turn of the loop to the next
    refine Program.wp_repeatCall (fun g' => g' = { g.at prio refused with fds := fd :: g.fds })
      rfl (fun _ inv => ?_) fun _ inv got _ => ?_
    · subst inv
      exact ⟨may parent rfl, List.mem_cons_self⟩
    · subst inv
      show Program.wp rules (if readCount got > 0 then _ else _) _ _
      split
      · exact Program.wp_call_seq ⟨may parent rfl, trivial⟩ fun _ _ => Program.wp_pure rfl
      · apply Program.wp_pure
        rw [if_neg Bool.false_ne_true]
        refine Program.wp_call_seq ⟨may parent rfl, List.mem_cons_self⟩ fun _ _ => ?_
        exact ends _ ((Ledger.Same.refl _).close).2
  · next other =>
    refine Program.wp_call_seq ?_ fun _ _ => ends _ ?_
    all_goals split
    · exact ⟨may parent rfl, trivial⟩
    · exact ⟨may parent rfl, trivial⟩
    · exact Ledger.Same.refl _
    · have known : -1 ≤ fd := answers.2
      obtain rfl : fd = 0 := by omega
      exact ⟨1, rfl⟩

/-- Every task function restores the ledger. -/
theorem restores_taskFnc (id : BootId) : Restores (taskFnc id) := by
  cases id with
  | readahead => exact restores_readahead
  | rootFs => exact ((Keeps.sys rfl).checkZero _).restores
  | sysFs => exact ((Keeps.sys rfl).checkZero _).restores
  | devFs => exact (mountDevfs_shape keeps_compositional fun _ plain _ => Keeps.sys plain).restores
  | tmpFs => exact ((Keeps.sys rfl).checkZero _).restores
  | runFs => exact ((Keeps.sys rfl).checkZero _).restores
  | deferred => exact restores_deferredModules
  | hostname =>
    exact (hostnameS_shape keeps_compositional keeps_readHostFile fun _ => Keeps.sys rfl).restores
  | allFs => exact ((keeps_executeArg _).checkZero _).restores
  | setupFs =>
    exact (setupFs_shape keeps_compositional fun _ plain _ _ => Keeps.sys plain).restores
  | udev =>
    exact (udev_shape keeps_compositional (fun _ plain _ _ => Keeps.sys plain)
      (fun path _ => keeps_clearFile path) keeps_run).restores
  | acpi => exact (keeps_run _).restores
  | dbus => exact (keeps_run _).restores
  | slim => exact (keeps_run _).restores
  | procps => exact (keeps_run _).restores
  | initD => exact (initD_shape keeps_compositional keeps_run).restores
  | _ => exact (Keeps.pure ()).restores

/-! ## `main` -/

/-- What `main` has made of its ledger, with at most `n` processes left. -/
structure Ledger.OfMain (n : Nat) (g : Ledger) : Prop where
  role : g.role = .main
  closed : g.Closed
  children : g.children.length ≤ n
  priority : g.priority = g.base

theorem Ledger.OfMain.parent {n : Nat} {g : Ledger} (main : g.OfMain n) : g.role ≠ .child := by
  rw [main.role]
  decide

theorem Keeps.main {α : Type} {p : Prog α} (keeps : Keeps p) {n : Nat} {g : Ledger}
    (main : g.OfMain n) : p.wp rules (fun _ => Ledger.OfMain n) g := by
  apply Program.wp_mono _ (keeps g main.parent)
  intro _ g' same
  have closed := same.closed main.closed
  rcases same with ⟨k, rfl⟩
  exact ⟨main.role, closed, main.children, main.priority⟩

theorem wp_startCollector (list : List CStr) {g : Ledger} (main : g.OfMain 0) :
    (executeArg list false true).wp rules (fun _ => Ledger.OfMain 1) g := by
  have few : g.OfMain 1 :=
    ⟨main.role, main.closed, main.children.trans (Nat.zero_le 1), main.priority⟩
  unfold executeArg
  split
  · exact (Keeps.bind (Keeps.sys rfl) fun _ => Keeps.pure _).main few
  · apply Program.wp_mono _ (wp_launch false list main.parent)
    rintro _ g' (rfl | ⟨pid, _, rfl⟩)
    · exact few
    · exact ⟨main.role, ⟨main.closed.fds, main.closed.maps, main.closed.streams⟩,
        Nat.succ_le_succ main.children, main.priority⟩

/-- Nothing comes after `execv` and `_exit`. -/
theorem wp_execInit (prog : CStr) (Q : Int → Ledger → Prop) {n : Nat} {g : Ledger}
    (main : g.OfMain n) (few : n ≤ 1) : (executeArg [prog] false false).wp rules Q g := by
  have free : ∀ c, g.mayCall c := by
    intro c
    unfold Ledger.mayCall
    rw [main.role]
    exact fun _ => ⟨main.closed, main.children.trans few, main.priority⟩
  refine Program.wp_call_seq ⟨free _, trivial⟩ fun _ _ => ?_
  exact ⟨⟨free _, trivial⟩, fun r => r.elim⟩

theorem wp_main_seq {α β : Type} {p : Prog α} {f : α → Prog β} {Q : β → Ledger → Prop} {n : Nat}
    (keeps : Keeps p) (rest : ∀ a (g : Ledger), g.OfMain n → (f a).wp rules Q g) {g : Ledger}
    (main : g.OfMain n) : (p >>= f).wp rules Q g := by
  apply Program.wp_then (keeps.main main)
  exact rest

/-- A descriptor that is used and closed leaves no trace. -/
theorem wp_close {α : Type} {fd : Int} {next : Prog α} {Q : α → Ledger → Prop} {g : Ledger}
    (parent : g.role ≠ .child) (holds : next.wp rules Q g) :
    (close fd >>= fun _ => next).wp rules Q { g with fds := fd :: g.fds } := by
  refine Program.wp_call_seq ⟨may parent rfl, List.mem_cons_self⟩ fun _ _ => ?_
  show next.wp rules Q { g with fds := (fd :: g.fds).erase fd }
  rw [List.erase_cons_head]
  exact holds

theorem keeps_cmdlineWords (tstr : List UInt8) : Keeps (cmdlineWords tstr) := by
  intro g parent
  apply Program.wp_then (wp_openFd (ascii "/proc/cmdline") oRdonly parent)
  rintro fd _ ⟨known, rfl⟩
  by_cases positive : fd > 0
  · rw [if_pos positive]
    have shape : g.hold ⟨fd, none⟩ = { g with fds := fd :: g.fds } := by
      show { g with fds := if fd = -1 then g.fds else fd :: g.fds } = _
      rw [if_neg (by omega)]
    rw [shape]
    refine Program.wp_call_seq ⟨may parent rfl, List.mem_cons_self⟩ fun got _ => ?_
    cases cmdline fd tstr (got.getD []) with
    | none => exact wp_close parent (Keeps.pure [] g parent)
    | some result => exact wp_close parent (Keeps.pure _ g parent)
  · rw [if_neg positive]
    apply Program.wp_pure
    show g.Same { g with fds := if fd = -1 then g.fds else fd :: g.fds }
    split
    · exact Ledger.Same.refl g
    · obtain rfl : fd = 0 := by omega
      exact ⟨1, rfl⟩

theorem keeps_start (threadMax : Nat) : Keeps (start threadMax) :=
  fun g parent => Program.wp_call ⟨may parent rfl, trivial⟩ fun _ _ => Ledger.Same.refl g

theorem wp_startOptions (options : Options) {g : Ledger} (main : g.OfMain 0) :
    (startOptions options).wp rules (fun _ => Ledger.OfMain 1) g := by
  have collector : ∀ g : Ledger, g.OfMain 0 → (if options.bootchartd then
      executeArg [ascii "/lib/bootchart/bootchart-collector", ascii "50"] false true
        else pure 0 : Prog Int).wp rules (fun _ => Ledger.OfMain 1) g := by
    intro g main
    split
    · exact wp_startCollector _ main
    · exact ⟨main.role, main.closed, main.children.trans (Nat.zero_le 1), main.priority⟩
  apply Program.wp_seq
  apply Program.wp_mono (Q := fun _ => Ledger.OfMain 0)
  · intro _ g main
    exact Program.wp_seq (Program.wp_mono (fun _ _ after => after) (collector g main))
  · split
    · exact wp_execInit _ _ main (Nat.zero_le 1)
    · exact (Keeps.pure 0).main main

/-- `main` never returns: it becomes `init` or exits, with everything closed. -/
theorem wp_mainInit (tstr : List UInt8) {g : Ledger} (main : g.OfMain 0) :
    (mainInit tstr).wp rules (fun _ _ => False) g := by
  have stdout : Keeps reopenStdout :=
    Keeps.bind (Keeps.sys rfl) fun _ => Program.Compositional.ite (Keeps.sys rfl) (Keeps.pure ())
  refine wp_main_seq stdout (fun _ g main => ?_) main
  refine wp_main_seq ((Keeps.sys rfl).checkZero _) (fun _ g main => ?_) main
  refine wp_main_seq (keeps_cmdlineWords tstr) (fun words g main => ?_) main
  apply Program.wp_then (wp_startOptions _ main)
  intro _ g main
  refine wp_main_seq (Keeps.sys rfl) (fun _ g main => ?_) main
  refine wp_main_seq (keeps_start 5) (fun _ g main => ?_) main
  exact Program.wp_seq (wp_execInit _ _ main le_rfl)

end DebianConf.Boot
