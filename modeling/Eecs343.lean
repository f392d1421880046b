import Eecs343.Server.ThreadPool.Queue
import Eecs343.Server.ThreadPool.Shutdown
import Eecs343.Server.ThreadPool.Wakeup
import Eecs343.Server.Requests
import Eecs343.Kma.Buddy.NoOverlap
import Eecs343.Kma.Buddy.Conserved
import Eecs343.Kma.Buddy.Coalesced
import Eecs343.Kma.Buddy.NoLeak
import Eecs343.Kma.Acceptance
import Eecs343.Server.Seats.Exclusive
import Eecs343.Server.Seats.Standby
import Eecs343.TinyShell.Table
import Eecs343.TinyShell.Launch
import Eecs343.TinyShell.Final
import Eecs343.TinyShell.Foreground
import Eecs343.TinyShell.Announcements
import Eecs343.TinyShell.CommandLine
import Eecs343.TinyShell.Search
import Eecs343.Base.Blocks
import Eecs343.FileSystem.Cat
import Eecs343.FileSystem.Lookup
import Eecs343.Kma.PagePool.Partition
import Eecs343.Server.Semaphore
import Eecs343.TinyShell.Interpreter.Words
import Eecs343.TinyShell.Interpreter.Pipes
import Eecs343.TinyShell.Interpreter.Shield
import Eecs343.Kma.Buddy.Insertion
import Eecs343.Kma.Buddy.Joining
import Eecs343.Kma.Buddy.Counters
import Eecs343.Kma.Buddy.BestFit
import Eecs343.Kma.ResourceMap.PageRelease
import Eecs343.Kma.ResourceMap.FirstFit
import Eecs343.FileSystem.Inodes
import Eecs343.FileSystem.Truncation
import Eecs343.FileSystem.Sparse
import Eecs343.FileSystem.Termination
import Eecs343.FileSystem.Confined
import Eecs343.Server.Seats.Cancelled
import Eecs343.Server.Seats.Truthful
import Eecs343.Server.Seats.Rendering
import Eecs343.Server.Seats.InFlight
import Eecs343.Server.Seats.Held
import Eecs343.Server.Connection.Dispatch
import Eecs343.Server.Connection.Headers
import Eecs343.Server.Connection.Overflow
import Eecs343.Server.Connection.Scanning
import Eecs343.Kma.ResourceMap.Coalesced
import Eecs343.Kma.Refusals
import Eecs343.Kma.Buddy.Nesting
import Eecs343.Kma.Buddy.Rounding
import Eecs343.Kma.Buddy.Contents
import Eecs343.Kma.Buddy.Stack
import Eecs343.Kma.Harness.Passes
import Eecs343.Server.Service
import Eecs343.Server.Seats.Section
import Eecs343.TinyShell.Session
import Eecs343.TinyShell.Journal
import Eecs343.FileSystem.Volume
