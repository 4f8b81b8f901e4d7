import Xv6.BioDriver
import Xv6.BioRun
import Xv6.ConsoleRun
import Xv6.CopyOut
import Xv6.Dealloc
import Xv6.Grep
import Xv6.InodeCopies
import Xv6.Kbd
import Xv6.LogRoom
import Xv6.MkfsImage
import Xv6.Mp
import Xv6.NameCrash
import Xv6.PathLookup
import Xv6.Pids
import Xv6.PipeCalls
import Xv6.ScreenTable
import Xv6.SharedWrite
import Xv6.SleepLock
import Xv6.TransparentRead
import Xv6.UmallocHeap
import Xv6.VmRun
import Xv6.WriteAtomic
