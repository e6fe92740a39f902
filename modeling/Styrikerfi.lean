import Styrikerfi.Lib.Machine32
import Styrikerfi.Lib.Path
import Styrikerfi.Lib.Linked
import Styrikerfi.Lib.Tiling
import Styrikerfi.Lib.Run
import Styrikerfi.Lib.Tally
import Styrikerfi.Lib.Words
import Styrikerfi.Lib.Lines
import Styrikerfi.Lib.Store
import Styrikerfi.Malloc.Mm
import Styrikerfi.Malloc.Layout
import Styrikerfi.Malloc.FreeList
import Styrikerfi.Malloc.Shape
import Styrikerfi.Malloc.Tags
import Styrikerfi.Malloc.Coalesce
import Styrikerfi.Malloc.Allocate
import Styrikerfi.Malloc.Refine
import Styrikerfi.Malloc.Session
import Styrikerfi.Malloc.Ledger
import Styrikerfi.Malloc.Clients
import Styrikerfi.Malloc.Order
import Styrikerfi.Malloc.Outcomes
import Styrikerfi.Malloc.Firstfit
import Styrikerfi.Malloc.Realloc
import Styrikerfi.Malloc.Memcpy
import Styrikerfi.Malloc.Extend
import Styrikerfi.Malloc.Wrap
import Styrikerfi.Malloc.Contract
import Styrikerfi.Malloc.Checkheap
import Styrikerfi.Malloc.Reshape
import Styrikerfi.Mdriver.Driver
import Styrikerfi.Mdriver.Ranges
import Styrikerfi.Mdriver.Overlap
import Styrikerfi.Mdriver.Accept
import Styrikerfi.Thrlab.Help
import Styrikerfi.Thrlab.Barbershop
import Styrikerfi.Thrlab.Bookkeeping
import Styrikerfi.Thrlab.Moves
import Styrikerfi.Thrlab.Counts
import Styrikerfi.Thrlab.Ring
import Styrikerfi.Thrlab.Safety
import Styrikerfi.Thrlab.Runs
import Styrikerfi.Thrlab.Properties
import Styrikerfi.Thrlab.Contention
import Styrikerfi.Tsh.Jobs
import Styrikerfi.Tsh.Jids
import Styrikerfi.Tsh.Shell
import Styrikerfi.Tsh.Invariant
import Styrikerfi.Tsh.Properties
import Styrikerfi.Tsh.Lookups
import Styrikerfi.Tsh.Bgfg
import Styrikerfi.Tsh.Status
import Styrikerfi.Tsh.Batches
import Styrikerfi.Tsh.Named
import Styrikerfi.Tsh.Parseline
import Styrikerfi.Tsh.ReadEval
import Styrikerfi.Malloc.Resizing
import Styrikerfi.Mdriver.Evaluate
import Styrikerfi.Mdriver.Student
import Styrikerfi.Mdriver.Report
import Styrikerfi.Lib.Scan
import Styrikerfi.Mdriver.ReadTrace
import Styrikerfi.Thrlab.Outcome
import Styrikerfi.Malloc.Baseline
import Styrikerfi.Mdriver.Baseline
import Styrikerfi.Mdriver.Fcyc
