import DebianConf.Boot.Disk
import DebianConf.Boot.Shapes
import DebianConf.Preload.SortCommand

/-!
# The calls of the `sort` command

`main` outside of process 1 as a program that makes system calls: it maps the list, opens every
file of it to ask for its first block, prints the list and closes everything. Whatever
descriptors and addresses the system gives, it prints what the model of the command without
system calls prints for the list.
-/

namespace DebianConf.Boot

open DebianConf.Lib DebianConf.SysLinux DebianConf.Preload
open DebianConf.Lib.Program (forEach Compositional settles_compositional)

/-- `loadFile`, and the members that it leaves (`preload.h:167-184`). Without a map nothing is
read. -/
def loadFileCalls (fname : CStr) : Prog (Mapped × Option Parser) := do
  let fd ← openFd fname oRdonly
  if fd ≠ -1 then
    match ← getFullMap fd with
    | some m => pure (⟨fd, some m⟩, loadFile m.content)
    | none => pure (⟨fd, none⟩, loadFile [])
  else pure (⟨fd, none⟩, loadFile [])

/-- The body of the loops of `UpdateBlock` (`preload.h:330-339`). -/
def updateRecord (mem : List UInt8) (pfileDesc : FileDesc) : Prog FileDesc := do
  let fd ← open_ (pfileDesc.text mem) oRdonly
  if fd = -1 then pure { pfileDesc with block := 0 }
  else
    match ← fibmap fd with
    | some block => do
      close fd
      pure { pfileDesc with block := block }
    | none => do
      perror (ascii "get FIBMAP")
      close fd
      pure { pfileDesc with block := 0 }

/-- `UpdateBlock` (`preload.h:324-342`). -/
def updateBlockCalls (mem : List UInt8) (fileDescs : List (List FileDesc)) :
    Prog (List (List FileDesc)) := forEach (forEach (updateRecord mem)) fileDescs

/-- `WriteOut` (`preload.h:344-354`). -/
def writeOutCalls (std : StdSort) (mem : List UInt8) (fileDescs : List (List FileDesc)) :
    Prog Unit := do
  let _ ← forEach (fun v => forEach (fun fd => printf (printLine mem fd)) (std.sort v)) fileDescs

/-- What `main` does when it sorts, up to the destructor of `preload_parser`
(`preload_main.cpp:168-173`). -/
def sortCalls (std : StdSort) (fname : CStr) : Prog Unit := do
  let (members, parser) ← loadFileCalls fname
  match parser with
  | some p => do
    let fileDescs ← updateBlockCalls p.cursor.mem (merge p.fileDescs)
    writeOutCalls std p.cursor.mem fileDescs
    members.destroy
  | none => members.destroy

/-- `main` when it is not process 1 (`preload_main.cpp:152-174`). -/
def mainCalls (std : StdSort) (av : List CStr) : Prog Unit :=
  let (sort, fname) := arguments false (ascii "/var/lib/e4rat/startup.log") av.tail
  if sort then sortCalls std fname else pure ()

/-! ## What the program does -/

section
variable {d : Disk} {g : Desk}

theorem disk_updateRecord (mem : List UInt8) (pfileDesc : FileDesc) :
    (updateRecord mem pfileDesc).wp (diskRules d) (fun fd g' =>
      fd = { pfileDesc with block := blockOf d.fibmap (pfileDesc.text mem) } ∧ g' = g) g := by
  apply disk_open
  · intro opens fd fresh
    rw [d.opensWith_rdonly] at opens
    have known : ∀ block, d.block (pfileDesc.text mem) = block →
        blockOf d.fibmap (pfileDesc.text mem) = block.getD 0 := by
      rintro _ rfl
      rw [blockOf, Disk.fibmap, if_pos opens]
    rw [if_neg fresh.valid]
    refine Program.wp_call_seq (g.opened_known fd _) fun block answers => ?_
    · have same := answers _ (g.lookup_opened fd _)
      have closed : ∀ rest, rest = blockOf d.fibmap (pfileDesc.text mem) →
          (close fd >>= fun _ => (pure { pfileDesc with block := rest } : Prog FileDesc)).wp
            (diskRules d) (fun fd g' => fd = { pfileDesc with
              block := blockOf d.fibmap (pfileDesc.text mem) } ∧ g' = g)
            (g.opened fd (pfileDesc.text mem)) := by
        rintro _ rfl
        apply Program.wp_then (disk_close fd (pfileDesc.text mem))
        exact fun _ _ same => ⟨rfl, same⟩
      cases block with
      | some block => exact closed block (known _ same.symm).symm
      | none =>
        exact Program.wp_call_seq trivial fun _ _ => closed 0 (known _ same.symm).symm
  · intro missing
    rw [d.opensWith_rdonly] at missing
    rw [if_pos rfl]
    refine ⟨?_, rfl⟩
    rw [blockOf, Disk.fibmap, if_neg (by simp [missing])]
    rfl

theorem mapIdx_const {α β : Type} (f : α → β) (l : List α) : l.mapIdx (fun _ => f) = l.map f := by
  apply List.ext_getElem?
  simp

/-- The block of a record depends on its path alone. -/
theorem updateBlock_eq (disk : CStr → Option (BitVec 32)) (mem : List UInt8)
    (fileDescs : List (List FileDesc)) : updateBlock (fun _ _ => disk) mem fileDescs =
      fileDescs.map fun v => v.map fun fd =>
        { fd with block := blockOf disk (fd.text mem) } := by
  simp only [updateBlock, mapIdx_const]
  rfl

theorem foldl_same {α σ : Type} (l : List α) (s : σ) : l.foldl (fun s _ => s) s = s := by
  induction l with
  | nil => rfl
  | cons a l ih => exact ih

theorem disk_updateBlockCalls (mem : List UInt8) (fileDescs : List (List FileDesc)) :
    (updateBlockCalls mem fileDescs).wp (diskRules d) (fun fileDescs' g' =>
      fileDescs' = updateBlock (fun _ _ => d.fibmap) mem fileDescs ∧ g' = g) g := by
  have vector : ∀ (v : List FileDesc) (g : Desk), (forEach (updateRecord mem) v).wp (diskRules d)
      (fun v' g' => v' = v.map (fun fd =>
        { fd with block := blockOf d.fibmap (fd.text mem) }) ∧ g' = g) g := by
    intro v g
    have loop := Program.wp_forEach (K := diskRules d) _ _ (fun g _ => g) v
      (fun fd _ g => disk_updateRecord mem fd) g
    apply Program.wp_mono _ loop
    rintro v' g' ⟨rfl, rfl⟩
    exact ⟨rfl, foldl_same v g⟩
  have loops := Program.wp_forEach (K := diskRules d) _ _ (fun g _ => g) fileDescs
    (fun v _ g => vector v g) g
  apply Program.wp_mono _ loops
  rintro fileDescs' g' ⟨rfl, rfl⟩
  exact ⟨(updateBlock_eq d.fibmap mem fileDescs).symm, foldl_same fileDescs g⟩

/-- What has been printed after more text. -/
def Desk.print (g : Desk) (text : List UInt8) : Desk := { g with out := g.out ++ text }

theorem foldl_print {α : Type} (text : α → List UInt8) (l : List α) (g : Desk) :
    l.foldl (fun g a => g.print (text a)) g = g.print (l.flatMap text) := by
  induction l generalizing g with
  | nil => simp [Desk.print]
  | cons a l ih =>
    rw [List.foldl_cons, ih, List.flatMap_cons]
    simp [Desk.print]

theorem disk_writeOutCalls (std : StdSort) (mem : List UInt8) (fileDescs : List (List FileDesc)) :
    (writeOutCalls std mem fileDescs).wp (diskRules d)
      (fun _ g' => g' = g.print (writeOut std mem fileDescs).2) g := by
  have vector : ∀ (v : List FileDesc) (g : Desk),
      (forEach (fun fd => printf (printLine mem fd)) (std.sort v)).wp (diskRules d)
        (fun units g' => units = (std.sort v).map (fun _ => ()) ∧
          g' = g.print ((std.sort v).flatMap (printLine mem))) g := by
    intro v g
    have loop := Program.wp_forEach (K := diskRules d) (fun fd => printf (printLine mem fd))
      (fun _ => ())
      (fun g fd => Desk.print g (printLine mem fd)) (std.sort v)
      (fun fd _ g => Program.wp_call trivial fun _ _ => ⟨rfl, rfl⟩) g
    apply Program.wp_mono _ loop
    rintro units g' ⟨rfl, rfl⟩
    exact ⟨rfl, foldl_print _ _ g⟩
  apply Program.wp_seq
  have loops := Program.wp_forEach (K := diskRules d) _ _
    (fun g v => Desk.print g ((std.sort v).flatMap (printLine mem))) fileDescs
    (fun v _ g => vector v g) g
  apply Program.wp_mono _ loops
  rintro units g' ⟨-, rfl⟩
  show _ = _
  rw [foldl_print, writeOut]
  simp [List.flatMap_map]

theorem disk_loadFileCalls (fname : CStr) : (loadFileCalls fname).wp (diskRules d)
    (fun r g' => g' = r.1.desk fname g ∧ r.2 = loadFile ((d.file fname).getD [])) g := by
  apply Program.wp_then (disk_openFd fname)
  rintro fd g' (⟨opens, valid, rfl⟩ | ⟨missing, rfl, rfl⟩)
  · rw [if_pos valid]
    apply Program.wp_then (disk_getFullMap fname valid)
    rintro m g' ⟨content, rfl⟩
    have file : d.file fname = m.map Map.content := by
      rw [Disk.file, if_pos opens, content]
    cases m with
    | none => exact ⟨rfl, by rw [file]; rfl⟩
    | some m => exact ⟨rfl, by rw [file]; rfl⟩
  · refine ⟨rfl, ?_⟩
    rw [Disk.file, if_neg (by simp [missing])]
    rfl

theorem disk_sortCalls (std : StdSort) (fname : CStr) : (sortCalls std fname).wp (diskRules d)
    (fun _ g' => ∃ text, sortFile std (fun _ _ => d.fibmap) ((d.file fname).getD []) = some text ∧
      g' = g.print text) g := by
  apply Program.wp_then (disk_loadFileCalls fname)
  rintro ⟨members, parser⟩ g' ⟨rfl, loaded⟩
  obtain ⟨q, always⟩ : ∃ q, loadFile ((d.file fname).getD []) = some q := by
    by_cases long : 50 ≤ ((d.file fname).getD []).length
    · obtain ⟨q, always, -⟩ := loadFile_long long
      exact ⟨q, always⟩
    · obtain ⟨q, always, -⟩ := loadFile_short (Nat.lt_of_not_le long)
      exact ⟨q, always⟩
  obtain rfl : parser = some q := loaded.trans always
  apply Program.wp_then (disk_updateBlockCalls q.cursor.mem (merge q.fileDescs))
  rintro fileDescs g' ⟨rfl, rfl⟩
  apply Program.wp_then_at (disk_writeOutCalls std q.cursor.mem _)
  intro _
  -- what is printed does not concern the members
  apply Program.wp_mono _ (disk_destroy (g := g.print _) members fname)
  rintro _ g' rfl
  exact ⟨_, by rw [sortFile, always]; rfl, rfl⟩

/-- The loops of the program are over lists. -/
theorem mainCalls_settles (std : StdSort) (av : List CStr) :
    (mainCalls std av).Settles fun _ _ => True := by
  have comp := settles_compositional (C := SysCall) (R := SysCall.Answer) fun _ _ => True
  have calls : ∀ c : SysCall, (sys c).Settles fun _ _ => True := fun _ _ => trivial
  have updates : ∀ mem fd, (updateRecord mem fd).Settles fun _ _ => True := by
    intro mem pfileDesc
    refine comp.bind (calls _) fun fd => Compositional.ite (comp.pure _) ?_
    refine comp.bind (calls _) fun block => ?_
    cases block with
    | some block => exact comp.bind (calls _) fun _ => comp.pure _
    | none => exact comp.bind (calls _) fun _ => comp.bind (calls _) fun _ => comp.pure _
  have loads : ∀ fname, (loadFileCalls fname).Settles fun _ _ => True := by
    intro fname
    refine comp.bind (comp.bind (calls _) fun fd => Compositional.ite ?_ (comp.pure _)) fun fd => ?_
    · exact comp.bind (calls _) fun _ => comp.pure _
    refine Compositional.ite (comp.bind ?_ fun m => ?_) (comp.pure _)
    · exact getFullMap_shape comp (F := []) (fun c _ _ => calls c) fd
    · cases m with
      | none => exact comp.pure _
      | some m => exact comp.pure _
  have destroys : ∀ p : Mapped, p.destroy.Settles fun _ _ => True := fun p =>
    destroy_shape comp (F := []) (fun c _ _ => calls c) p
  unfold mainCalls
  cases arguments false (ascii "/var/lib/e4rat/startup.log") av.tail with
  | mk sort fname =>
    refine Compositional.ite (comp.bind (loads fname) fun loaded => ?_) (comp.pure ())
    rcases loaded with ⟨members, parser⟩
    cases parser with
    | none => exact destroys members
    | some p =>
      refine comp.bind (comp.forEach (fun v => comp.forEach (updates _) v) _) fun fileDescs => ?_
      refine comp.bind (comp.bind (comp.forEach (fun v => ?_) _) fun _ => comp.pure ()) fun _ =>
        destroys members
      exact comp.forEach (fun fd => calls (.printf (printLine p.cursor.mem fd))) _

/-- The name of the list that `main` sorts. -/
def listName (av : List CStr) : CStr :=
  (arguments false (ascii "/var/lib/e4rat/startup.log") av.tail).2

/-- `main` outside of process 1, as a program of system calls. With every system that has the files
of `d`, whatever descriptors and addresses it gives, the program comes to an end, uses only what it
has opened, and closes and unmaps everything; and when the file that it is asked to sort is a list,
it has written to standard output what the model of the command prints for this list. -/
theorem sort_calls (std : StdSort) (d : Disk) (av : List CStr) (list : FinishedList)
    (listed : ascii "sort" ∈ av.tail → (d.file (listName av)).getD [] = list.content) :
    (mainCalls std av).Returns (diskRules d)
      (fun _ g => g.fds = [] ∧ g.maps = [] ∧ g.ahead = [] ∧
        mainOutside std (fun _ _ => d.fibmap) (fun _ => some list.content) av = some g.out)
      ⟨[], [], [], []⟩ := by
  apply Program.wp_returns (fun _ _ => disk_answered) (mainCalls_settles std av)
  have chosen := arguments_sort false (ascii "/var/lib/e4rat/startup.log") av.tail
  unfold listName at listed
  unfold mainCalls mainOutside
  cases given : arguments false (ascii "/var/lib/e4rat/startup.log") av.tail with
  | mk sort fname =>
    rw [given] at chosen listed
    cases sort with
    | false => exact ⟨rfl, rfl, rfl, rfl⟩
    | true =>
      have content := listed ((chosen.mp rfl).resolve_left Bool.false_ne_true)
      apply Program.wp_mono _ (disk_sortCalls std fname)
      rintro _ g ⟨text, printed, rfl⟩
      rw [content] at printed
      exact ⟨rfl, rfl, rfl, printed⟩

end

/-- The list of the files to read ahead. -/
def startupLog : CStr := ascii "/var/lib/e4rat/startup.log"

/-- Two files, listed by their names. -/
def twoFiles : Disk where
  opens _ := true
  isLink _ := false
  content path := some (if path = startupLog then twoPaths.content else [])
  size path := if path = ascii "/sbin/init" then 35864 else 2030544
  block path := some (if path = ascii "/sbin/init" then 5 else 7)

theorem sort_calls_two : (mainCalls stableSort [ascii "preload", ascii "sort"]).Returns
    (diskRules twoFiles) (fun _ g => g.fds = [] ∧ g.maps = [] ∧ g.ahead = [] ∧
      sortFile stableSort (fun _ _ => twoFiles.fibmap) twoPaths.content = some g.out)
    ⟨[], [], [], []⟩ :=
  sort_calls stableSort twoFiles [ascii "preload", ascii "sort"] twoPaths fun _ => rfl

end DebianConf.Boot
