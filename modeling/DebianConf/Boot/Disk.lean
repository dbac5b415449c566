import DebianConf.Boot.Functions

/-!
# A disk

A system that holds given files, as a contract for the calls on them: which of them can be opened,
what they contain, where they lie. What has been opened, mapped, written to standard output and
read ahead so far is on the desk of the program.
-/

namespace DebianConf.Boot

open DebianConf.Lib DebianConf.SysLinux

/-- The files of a system: which of them can be opened, which of them are symbolic links, what
they contain when they can be mapped, their sizes, and their first blocks where `FIBMAP` gives
them. -/
structure Disk where
  opens : CStr → Bool
  isLink : CStr → Bool
  content : CStr → Option (List UInt8)
  size : CStr → Int
  block : CStr → Option (BitVec 32)

/-- The content of a file that can be opened and mapped. -/
def Disk.file (d : Disk) (path : CStr) : Option (List UInt8) :=
  if d.opens path then d.content path else none

def Disk.fibmap (d : Disk) (path : CStr) : Option (BitVec 32) :=
  if d.opens path then d.block path else none

/-- Links are not followed with `O_NOFOLLOW`. -/
def Disk.opensWith (d : Disk) (path : CStr) (flags : Nat) : Bool :=
  d.opens path && !(d.isLink path && flags &&& oNofollow != 0)

/-- What is open under which path, what is mapped, what has been written to standard output, and how
much of which files has been read ahead. What `perror` writes goes to standard error. -/
structure Desk where
  fds : List (Int × CStr)
  maps : List (Nat × Int)
  out : List UInt8
  ahead : List (CStr × Int)

/-- The program makes no other calls than these, on what it has opened and mapped. -/
def Desk.allows (g : Desk) : SysCall → Prop
  | .open_ _ _ => True
  | .close fd => (g.fds.lookup fd).isSome
  | .fstat fd => (g.fds.lookup fd).isSome
  | .fibmap fd => (g.fds.lookup fd).isSome
  | .mmap fd _ => (g.fds.lookup fd).isSome
  | .posixFadviseWillneed fd _ _ => (g.fds.lookup fd).isSome
  | .readahead fd _ _ => (g.fds.lookup fd).isSome
  | .munmap addr length => (addr, length) ∈ g.maps
  | .perror _ => True
  | .printf _ => True
  | .getschedparam => True
  | .schedGetPriorityMax _ => True
  | .setschedprio _ => True
  | _ => False

/-- A descriptor that is not in use. -/
def Desk.Fresh (g : Desk) (fd : Int) : Prop := 0 ≤ fd ∧ ∀ path, (fd, path) ∉ g.fds

/-- The answers of a system with these files, which may choose descriptors and addresses that are
not in use. -/
def Disk.answers (d : Disk) (g : Desk) : (c : SysCall) → c.Answer → Prop
  | .open_ path flags, (fd : Int) => if d.opensWith path flags then g.Fresh fd else fd = -1
  | .fstat fd, (size : Int) => ∀ path, g.fds.lookup fd = some path → size = d.size path
  | .mmap fd length, (m : Option (Nat × List UInt8)) =>
    (∀ path, g.fds.lookup fd = some path → m.map Prod.snd = d.content path) ∧
      ∀ p, m = some p → (p.1, length) ∉ g.maps
  | .fibmap fd, (block : Option (BitVec 32)) =>
    ∀ path, g.fds.lookup fd = some path → block = d.block path
  | _, _ => True

def Desk.after (g : Desk) : (c : SysCall) → c.Answer → Desk
  | .open_ path _, (fd : Int) => if fd = -1 then g else { g with fds := (fd, path) :: g.fds }
  | .close fd, _ => { g with fds := g.fds.eraseP (·.1 = fd) }
  | .mmap _ length, (m : Option (Nat × List UInt8)) =>
    match m with
    | some (addr, _) => { g with maps := (addr, length) :: g.maps }
    | none => g
  | .munmap addr length, _ => { g with maps := g.maps.erase (addr, length) }
  | .printf text, _ => { g with out := g.out ++ text }
  | .readahead fd _ count, _ =>
    { g with ahead := g.ahead ++ ((g.fds.lookup fd).map fun path => (path, count)).toList }
  | _, _ => g

abbrev diskRules (d : Disk) : Contract SysCall SysCall.Answer where
  Ghost := Desk
  allows := Desk.allows
  answers := d.answers
  after := Desk.after

section
variable {d : Disk} {g : Desk}

/-- There is always something that is not in use. -/
theorem disk_answered {c : SysCall} (allowed : g.allows c) : ∃ r, d.answers g c r := by
  cases c with
  | open_ path flags =>
    by_cases opens : d.opensWith path flags = true
    · obtain ⟨fd, new⟩ := Infinite.exists_notMem_finset
        ((g.fds.map fun entry => entry.1.toNat).toFinset)
      refine ⟨(fd : Int), ?_⟩
      show if d.opensWith path flags = true then _ else _
      rw [if_pos opens]
      refine ⟨Int.natCast_nonneg fd, fun path' member => new ?_⟩
      rw [List.mem_toFinset]
      exact List.mem_map.mpr ⟨_, member, Int.toNat_natCast fd⟩
    · exact ⟨(-1 : Int), by simp [Disk.answers, opens]⟩
  | fstat fd =>
    obtain ⟨path, known⟩ := Option.isSome_iff_exists.mp allowed
    refine ⟨d.size path, fun path' known' => ?_⟩
    rw [Option.some.inj (known.symm.trans known')]
  | mmap fd length =>
    obtain ⟨path, known⟩ := Option.isSome_iff_exists.mp allowed
    obtain ⟨addr, new⟩ := Infinite.exists_notMem_finset ((g.maps.map Prod.fst).toFinset)
    refine ⟨(d.content path).map fun content => (addr, content), fun path' known' => ?_, ?_⟩
    · obtain rfl : path = path' := Option.some.inj (known.symm.trans known')
      simp
    · rintro p given
      obtain ⟨content, _, rfl⟩ := Option.map_eq_some_iff.mp given
      intro member
      apply new
      rw [List.mem_toFinset]
      exact List.mem_map.mpr ⟨_, member, rfl⟩
  | fibmap fd =>
    obtain ⟨path, known⟩ := Option.isSome_iff_exists.mp allowed
    refine ⟨d.block path, fun path' known' => ?_⟩
    rw [Option.some.inj (known.symm.trans known')]
  | close fd => exact ⟨(), trivial⟩
  | munmap addr length => exact ⟨(), trivial⟩
  | perror s => exact ⟨(), trivial⟩
  | printf text => exact ⟨(), trivial⟩
  | posixFadviseWillneed fd offset len => exact ⟨(), trivial⟩
  | readahead fd offset count => exact ⟨(), trivial⟩
  | getschedparam => exact ⟨none, trivial⟩
  | schedGetPriorityMax policy => exact ⟨(0 : Int), trivial⟩
  | setschedprio prio => exact ⟨(0 : Int), trivial⟩
  | _ => cases allowed

/-! ## Calls -/

/-- The page with a file open. -/
def Desk.opened (g : Desk) (fd : Int) (path : CStr) : Desk := { g with fds := (fd, path) :: g.fds }

theorem Desk.lookup_opened (g : Desk) (fd : Int) (path : CStr) :
    (g.opened fd path).fds.lookup fd = some path := List.lookup_cons_self

theorem Desk.close_opened (g : Desk) (fd : Int) (path : CStr) :
    (g.opened fd path).after (.close fd) () = g := by
  simp [Desk.after, Desk.opened]

theorem Desk.opened_known (g : Desk) (fd : Int) (path : CStr) :
    ((g.opened fd path).fds.lookup fd).isSome = true := by
  rw [g.lookup_opened]
  rfl

theorem Desk.Fresh.valid {fd : Int} (fresh : g.Fresh fd) : fd ≠ -1 := by
  have := fresh.1
  omega

/-- Without `O_NOFOLLOW` every link is followed. -/
theorem Disk.opensWith_rdonly (d : Disk) (path : CStr) :
    d.opensWith path oRdonly = d.opens path := by
  have unset : (oRdonly &&& oNofollow != 0) = false := rfl
  rw [opensWith, unset, Bool.and_false, Bool.not_false, Bool.and_true]

/-- A file is opened, or it is not there. -/
theorem disk_open {α : Type} {path : CStr} {flags : Nat} {f : Int → Prog α} {Q : α → Desk → Prop}
    (there : d.opensWith path flags = true → ∀ fd : Int, g.Fresh fd →
      (f fd).wp (diskRules d) Q (g.opened fd path))
    (missing : d.opensWith path flags = false → (f (-1)).wp (diskRules d) Q g) :
    (open_ path flags >>= f).wp (diskRules d) Q g := by
  refine Program.wp_call_seq trivial fun (fd : Int) answers => ?_
  replace answers : if d.opensWith path flags = true then g.Fresh fd else fd = -1 := answers
  show (f fd).wp (diskRules d) Q (if fd = -1 then g else g.opened fd path)
  cases opens : d.opensWith path flags with
  | true =>
    rw [if_pos opens] at answers
    rw [if_neg answers.valid]
    exact there opens fd answers
  | false =>
    rw [if_neg (by simp [opens])] at answers
    subst answers
    exact missing opens

theorem disk_close (fd : Int) (path : CStr) :
    (close fd).wp (diskRules d) (fun _ g' => g' = g) (g.opened fd path) :=
  Program.wp_call (g.opened_known fd path) fun _ _ => g.close_opened fd path

/-- What is mapped for the parser. -/
def Mapped.desk (p : Mapped) (fname : CStr) (g : Desk) : Desk where
  fds := if p.file = -1 then g.fds else (p.file, fname) :: g.fds
  maps := match p.m with
    | some m => (m.addr, m.size) :: g.maps
    | none => g.maps
  out := g.out
  ahead := g.ahead

theorem disk_openFd (path : CStr) : (openFd path oRdonly).wp (diskRules d)
    (fun fd g' => (d.opens path = true ∧ fd ≠ -1 ∧ g' = g.opened fd path) ∨
      (d.opens path = false ∧ fd = -1 ∧ g' = g)) g := by
  apply disk_open
  · intro opens fd fresh
    rw [if_neg fresh.valid]
    exact Or.inl ⟨d.opensWith_rdonly path ▸ opens, fresh.valid, rfl⟩
  · intro missing
    rw [if_pos rfl]
    refine Program.wp_call_seq trivial fun _ _ => ?_
    exact Or.inr ⟨d.opensWith_rdonly path ▸ missing, rfl, rfl⟩

theorem disk_getFullMap {fd : Int} (path : CStr) (valid : fd ≠ -1) :
    (getFullMap fd).wp (diskRules d) (fun m g' => m.map Map.content = d.content path ∧
      g' = Mapped.desk ⟨fd, m⟩ path g) (g.opened fd path) := by
  have known := g.opened_known fd path
  have desk : ∀ m, Mapped.desk ⟨fd, m⟩ path g = { g.opened fd path with
      maps := match m with
        | some m => (m.addr, m.size) :: g.maps
        | none => g.maps } := by
    intro m
    rw [Mapped.desk, if_neg valid]
    rfl
  refine Program.wp_call_seq known fun size _ => Program.wp_call_seq known fun m answers => ?_
  have content := answers.1 path (g.lookup_opened fd path)
  cases m with
  | none =>
    refine Program.wp_call_seq trivial fun _ _ => ?_
    exact ⟨content, (desk none).symm⟩
  | some m => exact ⟨content, (desk (some ⟨m.1, size, m.2⟩)).symm⟩

theorem disk_destroy (p : Mapped) (fname : CStr) :
    p.destroy.wp (diskRules d) (fun _ g' => g' = g) (p.desk fname g) := by
  have closes : (if p.file ≠ -1 then close p.file else pure ()).wp (diskRules d)
      (fun _ g' => g' = g) (Mapped.desk ⟨p.file, none⟩ fname g) := by
    split
    · next valid =>
      have shape : Mapped.desk ⟨p.file, none⟩ fname g = g.opened p.file fname := by
        rw [Mapped.desk, if_neg valid]
        rfl
      rw [shape]
      exact disk_close p.file fname
    · next failed =>
      rw [ne_eq, not_not] at failed
      rw [Mapped.desk, if_pos failed]
      rfl
  unfold Mapped.destroy
  rcases p with ⟨file, m⟩
  cases m with
  | none => exact closes
  | some m =>
    refine Program.wp_call_seq List.mem_cons_self fun _ _ => ?_
    have shape : (Mapped.desk ⟨file, some m⟩ fname g).after (.munmap m.addr m.size) () =
        Mapped.desk ⟨file, none⟩ fname g := by
      simp [Desk.after, Mapped.desk]
    show Program.wp (diskRules d) _ _
      ((Mapped.desk ⟨file, some m⟩ fname g).after (.munmap m.addr m.size) ())
    rw [shape]
    exact closes

end

end DebianConf.Boot
