import DebianConf.Boot.Functions
import DebianConf.Lib.Ownership

/-!
# Objects of the class `map`

The class `map` of `root/preload.h` as its clients use it: objects are constructed, moved from and
to each other and destroyed in any order. Whatever a client does with objects that are alive, as
long as it hands over only what it has mapped itself and handed to no other object, each mapping is
owned by one object, and `munmap` is called once for it, with its length.
-/

namespace DebianConf.Boot

open DebianConf.Lib DebianConf.SysLinux
open Function (update)
open DebianConf.Lib.Program (Compositional settles_compositional)

/-- The members of a `map` (`preload.h:47-48`). The address 0 is the null pointer. -/
structure MapObject where
  ptr : Nat
  size : Int
  deriving DecidableEq, Repr

namespace MapObject

/-- `map()` (`preload.h:62-64`). -/
def empty : MapObject := ⟨0, 0⟩

/-- The mapping that the object has to unmap. -/
def owned (m : MapObject) : Option (Nat × Int) := if m.ptr = 0 then none else some (m.ptr, m.size)

/-- What is left of an object that is moved from (`preload.h:58`, `71`). -/
def taken (m : MapObject) : MapObject := { m with ptr := 0 }

/-- `~map`, and what `operator =` begins with (`preload.h:54-55`, `74-78`). -/
def unmap (m : MapObject) : Prog Unit := if m.ptr ≠ 0 then munmap m.ptr m.size else pure ()

@[simp] theorem owned_empty : empty.owned = none := rfl

@[simp] theorem owned_taken (m : MapObject) : m.taken.owned = none := rfl

end MapObject

/-- What `fd::getFullMap` returns, with the bytes that are mapped (`preload.h:112-125`). -/
def fullMapObject (fd : Int) : Prog (MapObject × List UInt8) := do
  let size ← fstat fd
  match ← mmap fd size with
  | some (addr, content) => pure (⟨addr, size⟩, content)
  | none => do
    perror (ascii "map")
    pure (⟨0, size⟩, [])

/-! ## Clients -/

/-- The objects that are alive. -/
abbrev Objects (ι : Type) := ι → Option MapObject

/-- What a client has: objects, and mappings that it has made itself and given to none of them. -/
structure Holdings (ι : Type) where
  objects : Objects ι
  loose : List (Nat × Int)

/-- The public members of the class, as statements of a client (`preload.h:45-91`). -/
inductive MapOp (ι : Type) where
  /-- `map x` -/
  | construct (x : ι)
  /-- `map x(ptr, size)` -/
  | adopt (x : ι) (ptr : Nat) (size : Int)
  /-- `map x = file.getFullMap()` -/
  | getFullMap (x : ι) (fd : Int)
  /-- `map x(std::move(y))` -/
  | moveConstruct (x y : ι)
  /-- `x = std::move(y)` -/
  | moveAssign (x y : ι)
  /-- `~map` -/
  | destroy (x : ι)

/-- What a client does. It can look at the pointers, and map files itself. -/
inductive Client (ι : Type) where
  | done
  | step (op : MapOp ι) (rest : Client ι)
  /-- `if (x)` -/
  | test (x : ι) (yes no : Client ι)
  /-- `::mmap(nullptr, size, …, fd, 0)` -/
  | mapRaw (fd size : Int) (rest : Option Nat → Client ι)

section
variable {ι : Type} [DecidableEq ι]

/-- What becomes of the objects. It is undefined, which is `none`, to use an object that is not
alive, to construct one in the place of another that is, to map a file that is not open, or to hand
over to an object what the client does not hold. -/
def MapOp.run (files : List Int) (h : Holdings ι) : MapOp ι → Prog (Option (Holdings ι))
  | .construct x =>
    match h.objects x with
    | none => pure (some { h with objects := update h.objects x (some .empty) })
    | some _ => pure none
  | .adopt x ptr size =>
    match h.objects x with
    | none =>
      if ptr = 0 then pure (some { h with objects := update h.objects x (some ⟨ptr, size⟩) })
      else if (ptr, size) ∈ h.loose then
        pure (some ⟨update h.objects x (some ⟨ptr, size⟩), h.loose.erase (ptr, size)⟩)
      else pure none
    | some _ => pure none
  | .getFullMap x fd =>
    match h.objects x with
    | none =>
      if fd ∈ files then do
        let (m, _) ← fullMapObject fd
        pure (some { h with objects := update h.objects x (some m) })
      else pure none
    | some _ => pure none
  | .moveConstruct x y =>
    match h.objects x, h.objects y with
    | none, some m =>
      pure (some { h with objects := update (update h.objects x (some m)) y (some m.taken) })
    | _, _ => pure none
  | .moveAssign x y =>
    match h.objects x, h.objects y with
    | some this, some m => do
      this.unmap
      pure (some { h with objects := update (update h.objects x (some m)) y (some m.taken) })
    | _, _ => pure none
  | .destroy x =>
    match h.objects x with
    | some m => do
      m.unmap
      pure (some { h with objects := update h.objects x none })
    | none => pure none

def Client.run (files : List Int) : Client ι → Holdings ι → Prog (Option (Holdings ι))
  | .done, h => pure (some h)
  | .step op rest, h => do
    match ← op.run files h with
    | some h => rest.run files h
    | none => pure none
  | .test x yes no, h =>
    match h.objects x with
    | some m => if m.ptr ≠ 0 then yes.run files h else no.run files h
    | none => pure none
  | .mapRaw fd size rest, h =>
    if fd ∈ files then do
      match ← mmap fd size with
      | some (addr, _) => (rest (some addr)).run files { h with loose := (addr, size) :: h.loose }
      | none => (rest none).run files h
    else pure none

end

/-! ## What the system allows -/

/-- Files that are open can be mapped, and what is mapped can be unmapped. -/
def mapAllows (files : List Int) (maps : List (Nat × Int)) : SysCall → Prop
  | .fstat fd => fd ∈ files
  | .mmap fd _ => fd ∈ files
  | .munmap addr length => (addr, length) ∈ maps
  | .perror _ => True
  | _ => False

/-- A new mapping is not at the null pointer, and not one of those that there are. -/
def mapAnswers (maps : List (Nat × Int)) : (c : SysCall) → c.Answer → Prop
  | .mmap _ length, (m : Option (Nat × List UInt8)) =>
    ∀ p, m = some p → p.1 ≠ 0 ∧ (p.1, length) ∉ maps
  | _, _ => True

def mapAfter (maps : List (Nat × Int)) : (c : SysCall) → c.Answer → List (Nat × Int)
  | .mmap _ length, (m : Option (Nat × List UInt8)) =>
    match m with
    | some (addr, _) => (addr, length) :: maps
    | none => maps
  | .munmap addr length, _ => maps.erase (addr, length)
  | _, _ => maps

abbrev mapRules (files : List Int) : Contract SysCall SysCall.Answer where
  Ghost := List (Nat × Int)
  allows := mapAllows files
  answers := mapAnswers
  after := mapAfter

theorem map_answered {files : List Int} {maps : List (Nat × Int)} {c : SysCall}
    (allowed : mapAllows files maps c) : ∃ r, mapAnswers maps c r := by
  cases c with
  | mmap fd length => exact ⟨none, fun p given => nomatch given⟩
  | fstat fd => exact ⟨(0 : Int), trivial⟩
  | munmap addr length => exact ⟨(), trivial⟩
  | perror s => exact ⟨(), trivial⟩
  | _ => cases allowed

/-! ## Who owns what -/

/-- The mappings are those of the objects, each of which belongs to one of them, those that the
client holds itself, and those that were there before. -/
structure Holdings.Owned {ι : Type} (h : Holdings ι) (base maps held : List (Nat × Int)) :
    Prop where
  maps : maps.Perm (held ++ (h.loose ++ base))
  owned : OneOwner (fun x => (h.objects x).bind MapObject.owned) held
  loose : h.loose.Nodup
  apart : held.Disjoint h.loose

abbrev Holdings.Own {ι : Type} (h : Holdings ι) (base maps : List (Nat × Int)) : Prop :=
  ∃ held, h.Owned base maps held

section
variable {ι : Type} {h : Holdings ι} {base maps held : List (Nat × Int)} {files : List Int}

/-- Afterwards everything has its owner, unless the client has done something undefined. -/
def Kept (base : List (Nat × Int)) (result : Option (Holdings ι)) (maps : List (Nat × Int)) :
    Prop := ∀ h, result = some h → h.Own base maps

theorem kept_none : Kept base (none : Option (Holdings ι)) maps := fun _ given => nomatch given

theorem kept_some (own : h.Own base maps) : Kept base (some h) maps := by
  rintro _ ⟨⟩
  exact own

/-- An object that is not alive owns nothing. -/
theorem owned_dead {objects : Objects ι} {x : ι} (dead : objects x = none) :
    (objects x).bind MapObject.owned = none := by
  rw [dead]
  rfl

/-- A new mapping is held by nobody yet. -/
theorem Holdings.Owned.new {a : Nat × Int} (own : h.Owned base maps held) (new : a ∉ maps) :
    a ∉ held ∧ a ∉ h.loose := by
  rw [own.maps.mem_iff, List.mem_append, List.mem_append] at new
  exact ⟨fun member => new (Or.inl member), fun member => new (Or.inr (Or.inl member))⟩

/-- The client has mapped something itself. -/
theorem Holdings.Owned.mapRaw {a : Nat × Int} (own : h.Owned base maps held) (new : a ∉ maps) :
    Holdings.Owned { h with loose := a :: h.loose } base (a :: maps) held where
  maps := (own.maps.cons a).trans List.perm_middle.symm
  owned := own.owned
  loose := List.nodup_cons.mpr ⟨(own.new new).2, own.loose⟩
  apart := List.disjoint_cons_right.mpr ⟨(own.new new).1, own.apart⟩

variable [DecidableEq ι]

theorem owned_update (objects : Objects ι) (x : ι) (m : Option MapObject) :
    (fun z => (update objects x m z).bind MapObject.owned) =
      update (fun z => (objects z).bind MapObject.owned) x (m.bind MapObject.owned) := by
  funext z
  by_cases same : z = x
  · rw [same, Function.update_self, Function.update_self]
  · rw [Function.update_of_ne same, Function.update_of_ne same]

/-- An object changes without its mapping. -/
theorem Holdings.Owned.unchanged {x : ι} {m : Option MapObject} (own : h.Owned base maps held)
    (same : m.bind MapObject.owned = (h.objects x).bind MapObject.owned) :
    Holdings.Owned { h with objects := update h.objects x m } base maps held where
  maps := own.maps
  owned := by
    rw [owned_update, same, Function.update_eq_self]
    exact own.owned
  loose := own.loose
  apart := own.apart

/-- A new object gets a new mapping. -/
theorem Holdings.Owned.gain {x : ι} {m : MapObject} (own : h.Owned base maps held)
    (dead : h.objects x = none) (mapped : m.ptr ≠ 0) (new : (m.ptr, m.size) ∉ maps) :
    Holdings.Owned { h with objects := update h.objects x (some m) } base
      ((m.ptr, m.size) :: maps) ((m.ptr, m.size) :: held) where
  maps := own.maps.cons _
  owned := by
    have gains : (some m).bind MapObject.owned = some (m.ptr, m.size) := if_neg mapped
    rw [owned_update, gains]
    exact own.owned.gain (owned_dead dead) (own.new new).1
  loose := own.loose
  apart := List.disjoint_cons_left.mpr ⟨(own.new new).2, own.apart⟩

/-- A new object gets what the client has mapped. -/
theorem Holdings.Owned.adopt {x : ι} {m : MapObject} (own : h.Owned base maps held)
    (dead : h.objects x = none) (mapped : m.ptr ≠ 0) (given : (m.ptr, m.size) ∈ h.loose) :
    Holdings.Owned ⟨update h.objects x (some m), h.loose.erase (m.ptr, m.size)⟩ base maps
      ((m.ptr, m.size) :: held) where
  maps := by
    have taken := ((List.perm_cons_erase given).append_right base).append_left held
    exact own.maps.trans (taken.trans List.perm_middle)
  owned := by
    have gains : (some m).bind MapObject.owned = some (m.ptr, m.size) := if_neg mapped
    rw [owned_update, gains]
    exact own.owned.gain (owned_dead dead) fun member => own.apart member given
  loose := own.loose.erase _
  apart := List.disjoint_cons_left.mpr
    ⟨own.loose.not_mem_erase, List.disjoint_of_subset_right List.erase_subset own.apart⟩

/-- The mapping of an object is unmapped, if it has one, and then nobody owns it. -/
theorem wp_unmap {x : ι} {m : MapObject} (alive : h.objects x = some m)
    (own : h.Own base maps) : m.unmap.wp (mapRules files)
      (fun _ maps' =>
        Holdings.Own { h with objects := update h.objects x (some m.taken) } base maps') maps := by
  obtain ⟨held, own⟩ := own
  have given : (h.objects x).bind MapObject.owned = m.owned := by
    rw [alive]
    rfl
  unfold MapObject.unmap
  split
  · next mapped =>
    rw [MapObject.owned, if_neg mapped] at given
    have member : (m.ptr, m.size) ∈ held := (own.owned.mem_iff _).mpr ⟨x, given⟩
    refine Program.wp_call (own.maps.mem_iff.mpr (List.mem_append_left _ member)) fun _ _ => ?_
    refine ⟨held.erase (m.ptr, m.size), ?_, ?_, own.loose,
      List.disjoint_of_subset_left List.erase_subset own.apart⟩
    · rw [← List.erase_append_left _ member]
      exact own.maps.erase _
    · rw [owned_update]
      exact own.owned.release given
  · next null =>
    rw [ne_eq, not_not] at null
    have nothing : m.owned = none := if_pos null
    exact ⟨held, own.unchanged (given.trans nothing).symm⟩

/-- A new object, of what the system has just mapped. -/
theorem wp_fullMapObject {x : ι} {fd : Int} (dead : h.objects x = none) (opened : fd ∈ files)
    (own : h.Own base maps) : (fullMapObject fd).wp (mapRules files)
      (fun r maps' => Holdings.Own { h with objects := update h.objects x (some r.1) } base maps')
      maps := by
  obtain ⟨held, own⟩ := own
  refine Program.wp_call_seq opened fun size _ => Program.wp_call_seq opened fun m answers => ?_
  cases m with
  | none =>
    refine Program.wp_call_seq trivial fun _ _ => ⟨held, own.unchanged ?_⟩
    rw [owned_dead dead]
    rfl
  | some m =>
    obtain ⟨valid, new⟩ := answers m rfl
    exact ⟨_, own.gain dead valid new⟩

/-- An object without a mapping takes that of another. -/
theorem Holdings.Own.move {x y : ι} {m : MapObject} (alive : h.objects y = some m)
    (free : (h.objects x).bind MapObject.owned = none) (own : h.Own base maps) :
    Holdings.Own { h with objects := update (update h.objects x (some m)) y (some m.taken) }
      base maps := by
  obtain ⟨held, own⟩ := own
  refine ⟨held, own.maps, ?_, own.loose, own.apart⟩
  have given : (some m).bind MapObject.owned = (h.objects y).bind MapObject.owned := by
    rw [alive]
  have nothing : (some m.taken).bind MapObject.owned = none := rfl
  rw [owned_update, owned_update, given, nothing]
  exact own.owned.give free

/-- The assignment after its object has given up what it had. An object that is assigned to itself
is left without a mapping. -/
theorem Holdings.Own.assign {x y : ι} {this m : MapObject} (alive : h.objects x = some this)
    (alive' : h.objects y = some m)
    (own : Holdings.Own { h with objects := update h.objects x (some this.taken) } base maps) :
    Holdings.Own { h with objects := update (update h.objects x (some m)) y (some m.taken) }
      base maps := by
  rcases eq_or_ne y x with rfl | other
  · obtain rfl : this = m := Option.some.inj (alive.symm.trans alive')
    rwa [Function.update_idem]
  · have free : (update h.objects x (some this.taken) x).bind MapObject.owned = none := by
      rw [Function.update_self]
      rfl
    have there : update h.objects x (some this.taken) y = some m := by
      rw [Function.update_of_ne other, alive']
    have moved := own.move there free
    rwa [Function.update_idem] at moved

/-- One operation keeps that each mapping has one owner. -/
theorem wp_mapOp (op : MapOp ι) (own : h.Own base maps) :
    (op.run files h).wp (mapRules files) (Kept base) maps := by
  cases op with
  | construct x =>
    cases dead : h.objects x with
    | some m => simpa only [MapOp.run, dead] using Program.wp_pure kept_none
    | none =>
      simp only [MapOp.run, dead]
      obtain ⟨held, own⟩ := own
      refine Program.wp_pure (kept_some ⟨held, own.unchanged ?_⟩)
      rw [owned_dead dead]
      rfl
  | adopt x ptr size =>
    cases dead : h.objects x with
    | some m => simpa only [MapOp.run, dead] using Program.wp_pure kept_none
    | none =>
      simp only [MapOp.run, dead]
      obtain ⟨held, own⟩ := own
      split
      · next null =>
        refine Program.wp_pure (kept_some ⟨held, own.unchanged ?_⟩)
        rw [owned_dead dead]
        exact if_pos null
      · next mapped =>
        split
        · next given => exact Program.wp_pure (kept_some ⟨_, own.adopt dead mapped given⟩)
        · exact Program.wp_pure kept_none
  | getFullMap x fd =>
    cases dead : h.objects x with
    | some m => simpa only [MapOp.run, dead] using Program.wp_pure kept_none
    | none =>
      simp only [MapOp.run, dead]
      split
      · next opened =>
        apply Program.wp_then (wp_fullMapObject dead opened own)
        exact fun _ _ own => kept_some own
      · exact Program.wp_pure kept_none
  | moveConstruct x y =>
    cases dead : h.objects x with
    | some m => simpa only [MapOp.run, dead] using Program.wp_pure kept_none
    | none =>
      cases alive : h.objects y with
      | none => simpa only [MapOp.run, dead, alive] using Program.wp_pure kept_none
      | some m =>
        simp only [MapOp.run, dead, alive]
        exact Program.wp_pure (kept_some (own.move alive (owned_dead dead)))
  | moveAssign x y =>
    cases alive : h.objects x with
    | none => simpa only [MapOp.run, alive] using Program.wp_pure kept_none
    | some this =>
      cases alive' : h.objects y with
      | none => simpa only [MapOp.run, alive, alive'] using Program.wp_pure kept_none
      | some m =>
        simp only [MapOp.run, alive, alive']
        apply Program.wp_then (wp_unmap alive own)
        exact fun _ _ own => kept_some (own.assign alive alive')
  | destroy x =>
    cases alive : h.objects x with
    | none => simpa only [MapOp.run, alive] using Program.wp_pure kept_none
    | some m =>
      simp only [MapOp.run, alive]
      apply Program.wp_then (wp_unmap alive own)
      rintro _ _ ⟨held, own⟩
      have nothing : (none : Option MapObject).bind MapObject.owned =
          (update h.objects x (some m.taken) x).bind MapObject.owned := by
        rw [Function.update_self]
        rfl
      have gone := own.unchanged nothing
      rw [Function.update_idem] at gone
      exact kept_some ⟨held, gone⟩

theorem wp_client (client : Client ι) {h : Holdings ι} {maps : List (Nat × Int)}
    (own : h.Own base maps) :
    (client.run files h).wp (mapRules files) (Kept base) maps := by
  induction client generalizing h maps with
  | done => exact kept_some own
  | step op rest ih =>
    apply Program.wp_then (wp_mapOp op own)
    intro result maps' kept
    cases result with
    | none => exact kept_none
    | some h' => exact ih (kept h' rfl)
  | test x yes no ih_yes ih_no =>
    cases alive : h.objects x with
    | none => simpa only [Client.run, alive] using Program.wp_pure kept_none
    | some m =>
      simp only [Client.run, alive]
      split
      · exact ih_yes own
      · exact ih_no own
  | mapRaw fd size rest ih =>
    simp only [Client.run]
    split
    · next opened =>
      refine Program.wp_call_seq opened fun m answers => ?_
      cases m with
      | none => exact ih none own
      | some m =>
        obtain ⟨held, own⟩ := own
        exact ih (some m.1) ⟨held, own.mapRaw (answers m rfl).2⟩
    · exact Program.wp_pure kept_none

/-! ## Clients come to an end -/

omit [DecidableEq ι] in
theorem unmap_settles (m : MapObject) : m.unmap.Settles fun _ _ => True :=
  Compositional.ite (P := fun p => Program.Settles (fun _ _ => True) p) (fun _ => trivial) trivial

theorem mapOp_settles (op : MapOp ι) (h : Holdings ι) :
    (op.run files h).Settles fun _ _ => True := by
  have comp := settles_compositional (C := SysCall) (R := SysCall.Answer) fun _ _ => True
  cases op with
  | construct x =>
    cases alive : h.objects x <;> simp only [MapOp.run, alive] <;> exact comp.pure _
  | adopt x ptr size =>
    cases dead : h.objects x with
    | some m => simpa only [MapOp.run, dead] using comp.pure none
    | none =>
      simp only [MapOp.run, dead]
      exact Compositional.ite (comp.pure _) (Compositional.ite (comp.pure _) (comp.pure _))
  | getFullMap x fd =>
    cases dead : h.objects x with
    | some m => simpa only [MapOp.run, dead] using comp.pure none
    | none =>
      simp only [MapOp.run, dead]
      refine Compositional.ite (comp.bind ?_ fun _ => comp.pure _) (comp.pure _)
      intro size m
      cases m with
      | none => exact fun _ => trivial
      | some m => exact trivial
  | moveConstruct x y =>
    cases dead : h.objects x <;> cases alive : h.objects y <;>
      simp only [MapOp.run, dead, alive] <;> exact comp.pure _
  | moveAssign x y =>
    cases alive : h.objects x <;> cases alive' : h.objects y <;>
      simp only [MapOp.run, alive, alive']
    · exact comp.pure _
    · exact comp.pure _
    · exact comp.pure _
    · exact comp.bind (unmap_settles _) fun _ => comp.pure _
  | destroy x =>
    cases alive : h.objects x with
    | none => simpa only [MapOp.run, alive] using comp.pure none
    | some m =>
      simp only [MapOp.run, alive]
      exact comp.bind (unmap_settles m) fun _ => comp.pure _

theorem client_settles (client : Client ι) (h : Holdings ι) :
    (client.run files h).Settles fun _ _ => True := by
  have comp := settles_compositional (C := SysCall) (R := SysCall.Answer) fun _ _ => True
  induction client generalizing h with
  | done => exact comp.pure _
  | step op rest ih =>
    refine comp.bind (mapOp_settles op h) fun result => ?_
    cases result with
    | none => exact comp.pure none
    | some h' => exact ih h'
  | test x yes no ih_yes ih_no =>
    cases alive : h.objects x with
    | none => simpa only [Client.run, alive] using comp.pure none
    | some m =>
      simp only [Client.run, alive]
      exact Compositional.ite (ih_yes h) (ih_no h)
  | mapRaw fd size rest ih =>
    simp only [Client.run]
    refine Compositional.ite (fun m => ?_) (comp.pure _)
    cases m with
    | none => exact ih none h
    | some m => exact ih (some m.1) _

/-- A client of the class `map` that begins without objects and uses them as long as they are
alive, in any order, moves included. It may also map files itself, and hand over to a new object
what no object has yet. It only unmaps what is mapped, with the length it was mapped with; each
mapping that it has made and not unmapped belongs to exactly one object, or to the client itself;
and when all objects are destroyed nothing more is mapped than before, but what the client has
mapped itself and handed over to none. -/
theorem map_one_owner (files : List Int) (client : Client ι) (base : List (Nat × Int)) :
    (client.run files ⟨fun _ => none, []⟩).Returns (mapRules files)
      (fun result maps => ∀ h, result = some h →
        (∃ held, maps.Perm (held ++ (h.loose ++ base)) ∧ held.Disjoint h.loose ∧
          OneOwner (fun x => (h.objects x).bind MapObject.owned) held) ∧
        ((∀ x, h.objects x = none) → maps.Perm (h.loose ++ base))) base := by
  have start : Holdings.Own (⟨fun _ : ι => none, []⟩ : Holdings ι) base base :=
    ⟨[], .refl base, OneOwner.nothing, List.nodup_nil, List.disjoint_nil_left []⟩
  apply Program.wp_returns (fun _ _ => map_answered) (client_settles client _)
  apply Program.wp_mono _ (wp_client client start)
  intro result maps kept h given
  obtain ⟨held, own⟩ := kept h given
  refine ⟨⟨held, own.maps, own.apart, own.owned⟩, fun destroyed => ?_⟩
  have nothing := own.owned.eq_nil fun x => owned_dead (destroyed x)
  have perm := own.maps
  rwa [nothing, List.nil_append] at perm

end

end DebianConf.Boot
