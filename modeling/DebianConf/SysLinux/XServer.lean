import DebianConf.SysLinux.HostName
import DebianConf.SysLinux.Split

/-!
# Starting the X server

`startXserver` of `root/sys_linux.h`. It prints four texts into the one buffer `tmp_str` and
executes three of them. The last one is put together from up to three pieces, and the size given to
`snprintf` is computed from the pointer that the lengths of the pieces add up to.
-/

namespace DebianConf.SysLinux

open DebianConf.Lib DebianConf.Preload

/-- `x_display_id` (`sys_linux.h:578`). -/
def xDisplayId : Int := 1
/-- `x_vt_id` (`sys_linux.h:579`). -/
def xVtId : Int := 8

/-- A letter or a digit. -/
def isAlnum (b : UInt8) : Bool := isDigit b || (65 ≤ b && b ≤ 90) || (97 ≤ b && b ≤ 122)

/-- What `mkstemp` puts in place of the last six characters of its template. -/
structure Suffix where
  bytes : List UInt8
  length : bytes.length = 6
  alnum : ∀ b ∈ bytes, isAlnum b = true

/-- What the functions that `startXserver` calls return. -/
structure Outside where
  server : Suffix
  user : Suffix
  /-- what `/usr/bin/mcookie` writes -/
  cookie : List UInt8
  chown : Int
  access : List UInt8 → Int

/-- A call of `snprintf` on `tmp_str + cptr` (`sys_linux.h:443`, `469`, `479`, `492-501`). -/
structure Print where
  cptr : Nat
  size : Nat
  text : List UInt8
  deriving DecidableEq, Repr

/-- The buffer `tmp_str`, and what was printed into it. -/
structure Tmp where
  mem : List UInt8
  prints : List Print
  deriving DecidableEq, Repr

/-- `snprintf(tmp_str + cptr, size, format, …)` -/
def Tmp.print (tmp : Tmp) (cptr size : Nat) (format : String) (args : List FormatArg) :
    Option (Tmp × Nat) := do
  let text := formatText (ascii format) args
  let (mem, n) ← snprintf tmp.mem cptr size text
  return (⟨mem, tmp.prints ++ [⟨cptr, size, text⟩]⟩, n)

/-- `execute(tmp_str, wait, fork)` (`sys_linux.h:470`, `480`, `514`) -/
def Tmp.execute (tmp : Tmp) (wait fork : Bool) : Option (Tmp × Launch) := do
  let launch ← SysLinux.execute tmp.mem wait fork
  return ({ tmp with mem := launch.mem }, launch)

/-- `tmp_str + sizeof(tmp_str) - cptr - 1`, as the `size_t` that `snprintf` gets
(`sys_linux.h:497-501`). -/
def remaining (cptr : Nat) : Nat := ((255 - (cptr : Int) - 1) % 2 ^ 64).toNat

/-- `mkstemp`, which writes the suffix into its template (`sys_linux.h:456`, `473`). -/
def mkstemp (template : List UInt8) (suffix : Suffix) : Option (List UInt8) := do
  let name ← loadString template
  storeAll template (name.length - 6) suffix.bytes

/-- The output of `mcookie` is read into the member and ended (`sys_linux.h:462-466`). -/
def readCookie (mcookie output : List UInt8) : Option (List UInt8) := do
  let got := output.take (40 - 1)
  let r := got.length
  let mcookie ← storeAll mcookie 0 got
  if r > 0 then store mcookie r 0 else some mcookie

/-- The two calls of `xauth` differ in the file (`sys_linux.h:469-470`, `479-480`). -/
def xauth (tmp : Tmp) (file cookie : List UInt8) : Option (Tmp × Launch) := do
  let (tmp, _) ← tmp.print 0 (255 - 1) "/usr/bin/xauth -q -f %s add :%d . %s"
    [.s file, .d xDisplayId, .s cookie]
  tmp.execute true true

/-- What the X server is started with, and the configuration file that was looked for. -/
structure XCommand where
  probed : List UInt8
  launch : Launch
  deriving DecidableEq, Repr

/-- The option `-config`, if there is a configuration file (`sys_linux.h:498-499`). -/
def printConfig (tmp : Tmp) (cptr : Nat) (host : List UInt8) (r : Int) : Option (Tmp × Nat) := do
  if r = 0 then
    let (tmp, n) ← tmp.print cptr (remaining cptr) " -config /etc/X11/xorg.conf.%s" [.s host]
    return (tmp, cptr + n)
  else return (tmp, cptr)

/-- `startXserver` from the test for the configuration file on (`sys_linux.h:492-515`). -/
def xCommand (tmp : Tmp) (host server : List UInt8) (access : List UInt8 → Int) :
    Option (Tmp × XCommand) := do
  let (tmp, _) ← tmp.print 0 (255 - 1) "/etc/X11/xorg.conf.%s" [.s host]
  let probed ← loadString tmp.mem
  let r := access probed
  -- -terminate -quiet
  let (tmp, n) ← tmp.print 0 (remaining 0) "/usr/bin/X :%d " [.d xDisplayId]
  let cptr := 0 + n
  let (tmp, cptr) ← printConfig tmp cptr host r
  let (tmp, _) ← tmp.print cptr (remaining cptr)
    "  -audit 0 -logfile /dev/kmsg -nolisten tcp -auth %s vt0%d" [.s server, .d xVtId]
  let (tmp, launch) ← tmp.execute false false
  return (tmp, ⟨probed, launch⟩)

/-- A run of `startXserver`. It exits without a command when `chown` fails. -/
structure XRun where
  members : Members
  prints : List Print
  xauth : List Launch
  command : Option XCommand
  deriving DecidableEq, Repr

/-- `startXserver()` (`sys_linux.h:447-522`), on the members `s` and a buffer that holds `tmpStr`
at first. -/
def startXserver (s : Members) (tmpStr : List UInt8) (out : Outside) : Option XRun := do
  let srvAuthFile ← mkstemp s.srvAuthFile out.server
  let mcookie ← readCookie s.mcookie out.cookie
  -- Server auth file
  let server ← loadString srvAuthFile
  let cookie ← loadString mcookie
  let (tmp, serverAuth) ← xauth ⟨tmpStr, []⟩ server cookie
  -- Client auth file
  let usrAuthFile ← mkstemp s.usrAuthFile out.user
  let user ← loadString usrAuthFile
  let (tmp, clientAuth) ← xauth tmp user cookie
  let s := ⟨s.host, srvAuthFile, usrAuthFile, mcookie⟩
  -- change owner to main user
  if out.chown = -1 then return ⟨s, tmp.prints, [serverAuth, clientAuth], none⟩
  let host ← loadString s.host
  let (tmp, command) ← xCommand tmp host server out.access
  return ⟨s, tmp.prints, [serverAuth, clientAuth], some command⟩

end DebianConf.SysLinux
