import DebianConf.Tasks.Safety
import DebianConf.Tasks.Progress
import DebianConf.Tasks.WorkConservation
import DebianConf.Tasks.Termination
import DebianConf.Preload.SortRoundTrip
import DebianConf.Preload.FinalNewline
import DebianConf.Preload.Damage
import DebianConf.Preload.ListFile
import DebianConf.Lib.Memory
import DebianConf.Preload.Block
import DebianConf.Preload.Vectors
import DebianConf.Tasks.WholeScan
import DebianConf.Preload.Malformed
import DebianConf.SysLinux.Split
import DebianConf.SysLinux.Arguments
import DebianConf.SysLinux.SplitSafety
import DebianConf.SysLinux.Quoting
import DebianConf.SysLinux.BootOptions
import DebianConf.SysLinux.CString
import DebianConf.SysLinux.HostName
import DebianConf.SysLinux.XServer
import DebianConf.SysLinux.ConfiguredName
import DebianConf.Tasks.GroupCounters
import DebianConf.Tasks.WakeUpCount
import DebianConf.Lib.Inevitable
import DebianConf.Tasks.Outcome
import DebianConf.Tasks.Interleavings
import DebianConf.Boot.Functions
import DebianConf.Boot.Ledger
import DebianConf.Boot.Machine
import DebianConf.Boot.Books
import DebianConf.Boot.Restores
import DebianConf.Boot.LedgerRuns
import DebianConf.Boot.FileSystems
import DebianConf.Boot.MountOrder
import DebianConf.Boot.Shapes
import DebianConf.Boot.Descent
import DebianConf.Boot.ReachesInit
import DebianConf.Preload.SortCommand
import DebianConf.Boot.SortProgram
import DebianConf.Boot.MapObjects
import DebianConf.Boot.ParserMembers
import DebianConf.SysLinux.Session
import DebianConf.Boot.Duties
import DebianConf.Boot.BootOnce
import DebianConf.Boot.ReadaheadProgram
import DebianConf.Boot.MainCalls
