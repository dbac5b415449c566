import DebianConf.SysLinux.CString

/-!
# The host name

The constructor of `SysLinux` and `hostname`, which reads `/etc/hostname` into the member `host`.
-/

namespace DebianConf.SysLinux

open DebianConf.Lib DebianConf.Preload

/-- The members of the class `SysLinux` (`sys_linux.h:581-584`). -/
structure Members where
  host : List UInt8
  srvAuthFile : List UInt8
  usrAuthFile : List UInt8
  mcookie : List UInt8
  deriving DecidableEq, Repr

/-- The memory that the constructor finds for `host[100]` and `mcookie[40]`. -/
structure Storage where
  host : List UInt8
  mcookie : List UInt8
  host_size : host.length = 100
  mcookie_size : mcookie.length = 40

/-- Memory of static storage duration. -/
def Storage.zero : Storage := ⟨List.replicate 100 0, List.replicate 40 0, rfl, rfl⟩

/-- The constructor (`sys_linux.h:70-76`). -/
def construct (storage : Storage) : Option Members := do
  let host ← store storage.host 0 0
  let mcookie ← store storage.mcookie 0 0
  return { host := host
           srvAuthFile := ascii "/tmp/.server.auth.XXXXXX" ++ [0]
           usrAuthFile := ascii "/tmp/.user.auth.XXXXXX" ++ [0]
           mcookie := mcookie }

/-- `hostname()` (`sys_linux.h:528-545`), with the content of `/etc/hostname` if it can be opened:
the members after it and the name given to `sethostname`. -/
def hostname (s : Members) (file : Option (List UInt8)) : Option (Members × List UInt8) := do
  let host ← match file with
    | some content => do
      let got := content.take 100
      let r := got.length
      let host ← storeAll s.host 0 got
      if r > 0 then store host (r - 1) 0
      else storeAll host 0 (ascii "localhost" ++ [0])
    | none => some s.host
  let given ← loadString host
  return ({ s with host := host }, given)

/-! ## The name that is given -/

/-- What `hostname` makes of the file. Only a file that is read but empty leads to `localhost`, and
the last byte that is read is always cut off. -/
def givenName : Option (List UInt8) → List UInt8
  | none => []
  | some [] => ascii "localhost"
  | some content => upToNul (content.take 100).dropLast

theorem givenName_length (file : Option (List UInt8)) : (givenName file).length ≤ 99 := by
  match file with
  | none => exact Nat.zero_le 99
  | some [] => decide
  | some (b :: content) =>
    have shorter := (List.takeWhile_prefix (fun b => b != 0)
      (l := ((b :: content).take 100).dropLast)).length_le
    rw [List.length_dropLast, List.length_take] at shorter
    exact shorter.trans (by omega)

/-- The members as the constructor leaves them. -/
structure Members.Fresh (s : Members) : Prop where
  host : ∃ rest, s.host = 0 :: rest ∧ rest.length = 99
  srvAuthFile : s.srvAuthFile = ascii "/tmp/.server.auth.XXXXXX" ++ [0]
  usrAuthFile : s.usrAuthFile = ascii "/tmp/.user.auth.XXXXXX" ++ [0]
  mcookie : ∃ rest, s.mcookie = 0 :: rest ∧ rest.length = 39

theorem construct_fresh (storage : Storage) : ∃ s, construct storage = some s ∧ s.Fresh := by
  obtain ⟨host, mcookie, host_size, mcookie_size⟩ := storage
  obtain ⟨x, host, rfl⟩ := List.exists_cons_of_length_pos (by omega : 0 < host.length)
  obtain ⟨y, mcookie, rfl⟩ := List.exists_cons_of_length_pos (by omega : 0 < mcookie.length)
  exact ⟨_, rfl, ⟨host, rfl, Nat.succ.inj host_size⟩, rfl, rfl,
    ⟨mcookie, rfl, Nat.succ.inj mcookie_size⟩⟩

/-- What is read goes to the front of `host`, and a NUL over its last byte. -/
theorem holds_read {host got : List UInt8} (nonempty : got ≠ [])
    (fits : got.length ≤ host.length) : ∃ read ended, storeAll host 0 got = some read ∧
      store read (got.length - 1) 0 = some ended ∧ Holds ended (upToNul got.dropLast) := by
  obtain ⟨body, last, rfl⟩ : ∃ body last, got = body ++ [last] :=
    ⟨_, _, (List.dropLast_append_getLast nonempty).symm⟩
  rw [List.dropLast_concat]
  refine ⟨_, _, storeAll_front List.length_nil fits, ?_,
    holds_upToNul body (host.drop (body ++ [last]).length)⟩
  rw [List.nil_append, List.append_assoc, List.length_append]
  exact store_middle body last 0 _

theorem hostname_spec {s : Members} (fresh : s.Fresh) (file : Option (List UInt8)) :
    ∃ host, hostname s file = some ({ s with host := host }, givenName file) ∧
      Holds host (givenName file) := by
  obtain ⟨rest, cleared, rest_length⟩ := fresh.host
  have size : s.host.length = 100 := by rw [cleared, List.length_cons, rest_length]
  match file with
  | none =>
    have holds : Holds s.host [] := ⟨by simp, rest, cleared⟩
    refine ⟨s.host, ?_, holds⟩
    simp only [hostname, Option.bind_eq_bind, Option.bind_some, holds.loadString]
    rfl
  | some [] =>
    have stored : storeAll s.host 0 (ascii "localhost" ++ [0]) =
        some (ascii "localhost" ++ 0 :: s.host.drop 10) :=
      storeAll_front List.length_nil (by rw [size]; decide)
    have holds : Holds (ascii "localhost" ++ 0 :: s.host.drop 10) (ascii "localhost") :=
      ⟨by decide, _, rfl⟩
    refine ⟨_, ?_, holds⟩
    have nothing : storeAll s.host 0 [] = some s.host :=
      storeAll_front List.length_nil (Nat.zero_le _)
    simp only [hostname, List.take_nil, nothing, Option.bind_eq_bind, Option.bind_some]
    rw [if_neg (by simp), stored]
    simp only [Option.bind_some, holds.loadString]
    rfl
  | some (b :: content) =>
    have nonempty : (b :: content).take 100 ≠ [] := by simp
    have fits : ((b :: content).take 100).length ≤ s.host.length := by
      rw [List.length_take, size]
      exact Nat.min_le_left _ _
    obtain ⟨read, ended, stored, cut, holds⟩ := holds_read nonempty fits
    refine ⟨ended, ?_, holds⟩
    simp only [hostname, stored, Option.bind_eq_bind, Option.bind_some]
    rw [if_pos (by simp), cut]
    simp only [Option.bind_some, holds.loadString]
    rfl

end DebianConf.SysLinux
