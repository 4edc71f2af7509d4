import Aim.Proofs.AreaCounter
import Aim.Proofs.AreaReuse
import Aim.Proofs.AreaServes
import Aim.Proofs.OutOfPages
import Aim.Proofs.UvmIsolated
import Aim.Proofs.SimpleBoot
import Aim.Proofs.EarlyRange
import Aim.Proofs.SchedQueue
import Aim.Proofs.DevlistNext
import Aim.Proofs.CpuId
import Aim.Proofs.IrqSafe
import Aim.Proofs.RecLockSafe
import Aim.Proofs.ProbeEnds
import Aim.Proofs.BuddyShape
import Aim.Proofs.BuddyAtomic
import Aim.Proofs.AreaSizes
import Aim.Proofs.SimpleLengths
import Aim.Proofs.Kcalloc
import Aim.Proofs.SimpleValidate
import Aim.Proofs.UvmPerm
import Aim.Proofs.FormatEnd
import Aim.Proofs.FormatSplit
import Aim.Proofs.EarlyWindows
import Aim.Proofs.Bits64
import Aim.Proofs.BitCombine
import Aim.Proofs.MemmoveCopy
import Aim.Proofs.BootLoad
import Aim.Proofs.MpTable
import Aim.Proofs.NameEnd
import Aim.Proofs.SemaphoreRun
