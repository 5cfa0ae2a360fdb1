import Xv6.LogSpace
import Xv6.CacheRefinement
import Xv6.PipeFifo
import Xv6.ProcScheduling
import Xv6.ProcReaping
import Xv6.ProcSlots
import Xv6.ProcLocks
import Xv6.ProcessSize
import Xv6.MemoryMoves
import Xv6.ExecHeaders
import Xv6.PipeCopies
import Xv6.VirtioProtocol
import Xv6.PipeWakeups
import Xv6.LogSleep
import Xv6.ConsoleDiscipline
import Xv6.KillSafety
import Xv6.BlockLog
import Xv6.DirectoryGrowth
import Xv6.PathElements
import Xv6.SharedWrites
import Xv6.ShellLeaves
import Xv6.ShellPrinting
import Xv6.ShellStrings
import Xv6.UmallocLimits
import Xv6.GrepLines
import Xv6.CacheOrder
import Xv6.FileCalls
import Xv6.SleepLocks
