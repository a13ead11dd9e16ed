import Ece344Lab.Fs.Testfs
import Ece344Lab.Fs.Holes
import Ece344Lab.Fs.AllocatorRuns
import Ece344Lab.Fs.ReadExact
import Ece344Lab.Fs.DirMap
import Ece344Lab.Fs.InodeRuns
import Ece344Lab.Fs.ListedFile
import Ece344Lab.Fs.BitmapRuns
import Ece344Lab.Webserver.QueueRuns
import Ece344Lab.Webserver.CacheRuns
import Ece344Lab.Webserver.Confinement
import Ece344Lab.Webserver.ClientFormat
import Ece344Lab.Webserver.Headers
import Ece344Lab.Webserver.ErrorPages
import Ece344Lab.Webserver.Evictions
import Ece344Lab.Webserver.Memory
import Ece344Lab.Webserver.Responses
import Ece344Lab.Webserver.RobustIo
import Ece344Lab.Webserver.LruEntries
import Ece344Lab.Library.LinkedQueues
import Ece344Lab.Threads.Thread
import Ece344Lab.Threads.Wakeups
import Ece344Lab.Threads.Arguments
import Ece344Lab.Threads.WaitQueues
import Ece344Lab.Threads.Marks
import Ece344Lab.Threads.Interrupts
import Ece344Lab.Warmup.Words
import Ece344Lab.Warmup.PointRuns
import Ece344Lab.Warmup.WordTable
import Ece344Lab.Warmup.PointMemory
import Ece344Lab.Library.NameTree
import Ece344Lab.Fs.Frames
import Ece344Lab.Fs.Volume
import Ece344Lab.Fs.Changes
import Ece344Lab.Fs.Edits
import Ece344Lab.Fs.Looking
import Ece344Lab.Fs.Silence
import Ece344Lab.Library.Simulation
import Ece344Lab.Fs.Machine
import Ece344Lab.Fs.Reopen
import Ece344Lab.Fs.Start
import Ece344Lab.Fs.Sessions
import Ece344Lab.Fs.Guarantees
import Ece344Lab.Library.Tokens
import Ece344Lab.Fs.Shell
import Ece344Lab.Fs.Scripts
import Ece344Lab.Fs.Browsing
