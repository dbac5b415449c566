import DebianConf.Boot.SortProgram

/-!
# What is read ahead

The function that reads ahead at boot, on a disk: it opens the files that its list names, in the
order of the list, and reads each of them ahead in full. Once the list has been sorted, this is
the order of their first blocks.
-/

namespace DebianConf.Boot

open DebianConf.Lib DebianConf.SysLinux DebianConf.Preload

/-- The files that are read ahead when the list names `paths`, with how much of them. -/
def Disk.reads (d : Disk) (paths : List CStr) : List (CStr × Int) :=
  (paths.filter (d.opensWith · (oRdonly ||| oNofollow))).map fun path => (path, d.size path)

/-- The desk once `files` have been read ahead. -/
def Desk.reads (g : Desk) (files : List (CStr × Int)) : Desk :=
  { g with ahead := g.ahead ++ files }

/-- Standard input is open, so that no file gets its descriptor, which `readahead` takes for an
error. -/
def Desk.HasInput (g : Desk) : Prop := ∃ path, (0, path) ∈ g.fds

section
variable {d : Disk} {g : Desk}

theorem Desk.Fresh.pos {fd : Int} (fresh : g.Fresh fd) (input : g.HasInput) : 0 < fd := by
  obtain ⟨path, used⟩ := input
  have other : fd ≠ 0 := by
    rintro rfl
    exact fresh.2 path used
  have := fresh.1
  omega

theorem reads_cons (d : Disk) (path : CStr) (paths : List CStr) :
    d.reads (path :: paths) = d.reads [path] ++ d.reads paths := by
  rw [← List.singleton_append, Disk.reads, List.filter_append, List.map_append]
  rfl

theorem Desk.reads_reads (g : Desk) (files files' : List (CStr × Int)) :
    (g.reads files).reads files' = g.reads (files ++ files') := by
  simp [Desk.reads]

theorem Desk.reads_nil (g : Desk) : g.reads [] = g := by
  simp [Desk.reads]

theorem Desk.HasInput.reads (input : g.HasInput) (files : List (CStr × Int)) :
    (g.reads files).HasInput := input

theorem Desk.HasInput.desk (input : g.HasInput) (p : Mapped) (fname : CStr) :
    (p.desk fname g).HasInput := by
  obtain ⟨path, used⟩ := input
  refine ⟨path, ?_⟩
  unfold Mapped.desk
  split
  · exact used
  · exact List.mem_cons_of_mem _ used

/-- Reading ahead does not concern the members. -/
theorem desk_reads (p : Mapped) (fname : CStr) (files : List (CStr × Int)) :
    (p.desk fname g).reads files = p.desk fname (g.reads files) := rfl

/-- A file is read ahead, or it is counted. -/
theorem disk_readaheadFile (input : g.HasInput) (failCount : Nat) (dt : CStr) :
    (readaheadFile failCount dt).wp (diskRules d) (fun n g' =>
      n + (d.reads [dt]).length = failCount + 1 ∧ g' = g.reads (d.reads [dt])) g := by
  apply disk_open
  · intro opens fd fresh
    have reads : d.reads [dt] = [(dt, d.size dt)] := by
      rw [Disk.reads, List.filter_singleton, opens]
      rfl
    have known := g.opened_known fd dt
    rw [if_pos (fresh.pos input)]
    refine Program.wp_call_seq known fun size answers => ?_
    obtain rfl := answers dt (g.lookup_opened fd dt)
    refine Program.wp_call_seq known fun _ _ => Program.wp_call_seq known fun _ _ => ?_
    have after : (g.opened fd dt).after (.readahead fd 0 (d.size dt)) () =
        (g.reads (d.reads [dt])).opened fd dt := by
      show ({ g.opened fd dt with ahead := g.ahead ++
        (((g.opened fd dt).fds.lookup fd).map fun path => (path, d.size dt)).toList } : Desk) = _
      rw [g.lookup_opened, reads]
      rfl
    show Program.wp (diskRules d) _ _ ((g.opened fd dt).after (.readahead fd 0 (d.size dt)) ())
    rw [after]
    apply Program.wp_then_at (disk_close fd dt)
    intro _
    exact ⟨by rw [reads]; rfl, rfl⟩
  · intro missing
    have reads : d.reads [dt] = [] := by
      rw [Disk.reads, List.filter_singleton, missing]
      rfl
    rw [if_neg (by omega), reads, g.reads_nil]
    exact ⟨rfl, rfl⟩

/-- Every file of the list is read ahead, in this order, or it is counted. -/
theorem disk_readaheadFiles (input : g.HasInput) (failCount : Nat) (paths : List CStr) :
    (readaheadFiles failCount paths).wp (diskRules d) (fun n g' =>
      n + (d.reads paths).length = failCount + paths.length ∧ g' = g.reads (d.reads paths)) g := by
  induction paths generalizing failCount g with
  | nil => exact ⟨rfl, g.reads_nil.symm⟩
  | cons dt rest ih =>
    apply Program.wp_then (disk_readaheadFile input failCount dt)
    rintro count _ ⟨counted, rfl⟩
    apply Program.wp_mono _ (ih (input.reads _) count)
    rintro n _ ⟨counted', rfl⟩
    rw [reads_cons, Desk.reads_reads, List.length_append, List.length_cons]
    exact ⟨by omega, rfl⟩

theorem disk_preloadReadahead (input : g.HasInput) (fname : CStr) :
    (preloadReadahead fname).wp (diskRules d) (fun r g' => g' = r.1.desk fname
      (g.reads (d.reads (Preload.readahead ((d.file fname).getD []))))) g := by
  have nothing : g.reads (d.reads (Preload.readahead [])) = g := g.reads_nil
  apply Program.wp_then (disk_openFd fname)
  rintro fd g' (⟨opens, valid, rfl⟩ | ⟨missing, rfl, rfl⟩)
  · rw [if_pos valid]
    apply Program.wp_then (disk_getFullMap fname valid)
    rintro m g' ⟨content, rfl⟩
    have file : d.file fname = m.map Map.content := by
      rw [Disk.file, if_pos opens, content]
    rw [file]
    cases m with
    | none =>
      show Mapped.desk ⟨fd, none⟩ fname g = _
      rw [Option.map_none, Option.getD_none, nothing]
    | some m =>
      have lines : (readaheadLoop (Cursor.start m.content)).1.map Line.path =
          Preload.readahead m.content := by
        rw [Preload.readahead, readaheadLines_eq]
      apply Program.wp_then (disk_readaheadFiles (input.desk _ fname) 0 _)
      rintro n _ ⟨-, rfl⟩
      rw [lines, desk_reads]
      rfl
  · rw [if_neg (by simp), Disk.file, if_neg (by simp [missing]), Option.getD_none, nothing]
    rfl

theorem disk_setPriorityMax : setPriorityMax.wp (diskRules d) (fun _ g' => g' = g) g := by
  refine Program.wp_call_seq trivial fun param _ => ?_
  cases param with
  | none => rfl
  | some param =>
    exact Program.wp_call_seq trivial fun _ _ => Program.wp_call_seq trivial fun _ _ => rfl

theorem disk_setPriority (old : Option Int) :
    (setPriority old).wp (diskRules d) (fun _ g' => g' = g) g := by
  cases old with
  | none => rfl
  | some prio => exact Program.wp_call_seq trivial fun _ _ => rfl

theorem disk_readahead (input : g.HasInput) : readahead.wp (diskRules d) (fun _ g' =>
    g' = g.reads (d.reads (Preload.readahead ((d.file startupLog).getD [])))) g := by
  apply Program.wp_then_at disk_setPriorityMax
  intro old
  apply Program.wp_then (disk_preloadReadahead input startupLog)
  rintro ⟨members, n⟩ _ rfl
  exact Program.wp_then_at (disk_setPriority old) fun _ => disk_destroy members startupLog

/-- The loops of `readahead` are over lists. -/
theorem readahead_settles : readahead.Settles fun _ _ => True := by
  have comp := Program.settles_compositional (C := SysCall) (R := SysCall.Answer) fun _ _ => True
  exact readahead_shape (F := []) comp fun _ _ _ _ => trivial

/-- The function that reads ahead, on every system that has the files of `d`, whatever descriptors
and addresses it gives: it comes to an end, leaves nothing open or mapped, writes nothing to
standard output, and has read ahead, to their full size and in the order of the list, the files
that the model without calls opens, but those that are missing or links. -/
theorem readahead_calls (d : Disk) (list : ListFile)
    (listed : (d.file startupLog).getD [] = list.content) (input : g.HasInput) :
    readahead.Returns (diskRules d)
      (fun _ g' => g' = g.reads (d.reads (Preload.readahead list.content))) g := by
  rw [← listed]
  exact Program.wp_returns (fun _ _ => disk_answered) readahead_settles (disk_readahead input)

end

theorem readahead_calls_two : readahead.Returns (diskRules twoFiles)
    (fun _ g' => g'.ahead = [(ascii "/lib/libc.so.6", 2030544), (ascii "/sbin/init", 35864)])
    ⟨[(0, ascii "/dev/console")], [], [], []⟩ := by
  have reads : twoFiles.reads (Preload.readahead twoPaths.content) =
      [(ascii "/lib/libc.so.6", 2030544), (ascii "/sbin/init", 35864)] := by decide +kernel
  refine Program.Returns.mono ?_
    (readahead_calls twoFiles twoPaths.listFile rfl ⟨_, List.mem_singleton_self _⟩)
  rintro _ _ rfl
  show (_ ++ twoFiles.reads (Preload.readahead twoPaths.content) : List (CStr × Int)) = _
  rw [reads]
  rfl

section
variable {d : Disk} {g : Desk}

/-! ## Sorting and reading ahead -/

/-- The disk once `text` is the list. An empty file cannot be mapped. -/
def Disk.install (d : Disk) (text : List UInt8) : Disk :=
  { d with
    opens := Function.update d.opens startupLog true
    content := Function.update d.content startupLog (if text = [] then none else some text)
    size := Function.update d.size startupLog text.length }

theorem file_install (d : Disk) (text : List UInt8) :
    ((d.install text).file startupLog).getD [] = text := by
  simp only [Disk.file, Disk.install, Function.update_self, if_true]
  split
  · next empty => exact empty.symm
  · rfl

theorem map_fst_reads (d : Disk) (paths : List CStr) :
    (d.reads paths).map Prod.fst = paths.filter (d.opensWith · (oRdonly ||| oNofollow)) := by
  rw [Disk.reads, List.map_map]
  exact List.map_id _

theorem reads_perm (d : Disk) {paths paths' : List CStr} (perm : paths.Perm paths') :
    (d.reads paths).Perm (d.reads paths') := (perm.filter _).map _

/-- From one boot to the next. When `preload sort` has sorted the list, what it has printed is a
list again, and once this is made the list, the function that reads ahead reads the same files ahead
as it would have done from the old list, in the order of their first blocks. This holds of every
list of at least 50 bytes that does not end in a token right after its last line. -/
theorem sorted_boot (std : StdSort) (d : Disk) (name : CStr) (list : FinishedList)
    (listed : (d.file startupLog).getD [] = list.content) (long : 50 ≤ list.content.length)
    (intact : ¬ TokenAfterNewline list.content) :
    (mainCalls std [name, ascii "sort"]).Returns (diskRules d) (fun _ printed =>
      ∃ out : FinishedList, printed.out = out.content ∧ ∀ g : Desk, g.HasInput →
        readahead.Returns (diskRules (d.install out.content)) (fun _ g' => ∃ files,
          g' = g.reads files ∧
          files.Perm ((d.install out.content).reads (Preload.readahead list.content)) ∧
          InOrder d.fibmap (files.map Prod.fst)) g) ⟨[], [], [], []⟩ := by
  apply Program.wp_returns (fun _ _ => disk_answered) (mainCalls_settles std _)
  show (sortCalls std startupLog).wp (diskRules d) _ _
  apply Program.wp_mono _ (disk_sortCalls std startupLog)
  rintro _ _ ⟨text, printed, rfl⟩
  rw [listed] at printed
  obtain ⟨keys, printed', perm, ordered, read, records, complete⟩ :=
    sortFile_intact std d.fibmap long intact
  obtain rfl : text = keys.flatMap printKey := Option.some.inj (printed.symm.trans printed')
  have opened := readahead_of_keys read
  rw [← opened] at ordered
  have same := perm.map fun key => key.2.2
  rw [← opened, List.map_map] at same
  refine ⟨⟨keys.flatMap printKey, fun _ => complete.finished⟩, rfl, fun g input => ?_⟩
  show readahead.Returns (diskRules (d.install (keys.flatMap printKey))) _ g
  apply Program.wp_returns (fun _ _ => disk_answered) readahead_settles
  apply Program.wp_mono _ (disk_readahead input)
  rintro _ _ rfl
  rw [file_install]
  refine ⟨_, rfl, reads_perm _ same, ?_⟩
  rw [map_fst_reads]
  exact ordered.sublist List.filter_sublist

end

theorem sorted_boot_two : (mainCalls stableSort [ascii "preload", ascii "sort"]).Returns
    (diskRules twoFiles) (fun _ printed =>
      ∃ out : FinishedList, printed.out = out.content ∧ ∀ g : Desk, g.HasInput →
        readahead.Returns (diskRules (twoFiles.install out.content)) (fun _ g' => ∃ files,
          g' = g.reads files ∧
          files.Perm ((twoFiles.install out.content).reads
            (Preload.readahead twoPaths.content)) ∧
          InOrder twoFiles.fibmap (files.map Prod.fst)) g) ⟨[], [], [], []⟩ :=
  sorted_boot stableSort twoFiles (ascii "preload") twoPaths rfl (by decide +kernel)
    ((readaheadLoop_kept_iff _).mp (by decide +kernel))

end DebianConf.Boot
