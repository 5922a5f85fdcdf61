import LdbToolchain.Lib.Memory
import LdbToolchain.Lib.Wp
import LdbToolchain.Lib.Lanes
import LdbToolchain.Lib.Heap
import LdbToolchain.Syscall
import LdbToolchain.Memcpy.Machine
import LdbToolchain.Memcpy.Basic
import LdbToolchain.Memcpy.Correct
import LdbToolchain.Getauxval.Basic
import LdbToolchain.Getauxval.Secure
import LdbToolchain.Getauxval.Lookup
import LdbToolchain.Spawn.Kernel
import LdbToolchain.Spawn.FileActions
import LdbToolchain.Spawn.Execvpe
import LdbToolchain.Spawn.PosixSpawn
import LdbToolchain.Spawn.Report
import LdbToolchain.Spawn.Actions
import LdbToolchain.Spawn.Mask
import LdbToolchain.Spawn.Search
import LdbToolchain.Spawn.PosixSpawnp
import LdbToolchain.Lib.Rose
import LdbToolchain.Lib.Tally
import LdbToolchain.Tfg.CallTree
import LdbToolchain.Tfg.Tallied
import LdbToolchain.Tfg.Aggregate
import LdbToolchain.Tfg.Rebuild
import LdbToolchain.Tfg.Layout
import LdbToolchain.Tfg.Lossless
import LdbToolchain.Tfg.Picture
import LdbToolchain.Tfg.Lineage
import LdbToolchain.Tfg.Zooming
import LdbToolchain.Tfg.Inspect
import LdbToolchain.Lib.Bfs
import LdbToolchain.Tfg.Browser
import LdbToolchain.Tfg.Consistent
import LdbToolchain.Tfg.OnScreen
import LdbToolchain.Ldd.Basic
import LdbToolchain.Ldd.Closure
import LdbToolchain.Glob.Basic
import LdbToolchain.Glob.Report
import LdbToolchain.Glob.Errors
import LdbToolchain.Lib.PyStr
import LdbToolchain.Tfg.Dump
import LdbToolchain.Tfg.Collapser
import LdbToolchain.Tfg.RoundTrip
import LdbToolchain.Tfg.Dtrace
import LdbToolchain.Tfg.Perf
import LdbToolchain.Tfg.PerfSamples
import LdbToolchain.Lib.Linked
import LdbToolchain.Spawn.ActionList
import LdbToolchain.Strchrnul
import LdbToolchain.Lib.Code
import LdbToolchain.Longjmp.Aarch64
import LdbToolchain.Longjmp.Resume
import LdbToolchain.Tfg.Links
import LdbToolchain.Lib.Levels
import LdbToolchain.Mkstemps
import LdbToolchain.Tfg.Divisors
import LdbToolchain.Tfg.Levels
import LdbToolchain.Tfg.Malformed
import LdbToolchain.Tfg.Menu
import LdbToolchain.Tfg.MenuScreen
import LdbToolchain.Tfg.MenuScroll
import LdbToolchain.Tfg.MenuColumns
import LdbToolchain.Tfg.Texts
import LdbToolchain.Wrappers
import LdbToolchain.Atomic.Word
import LdbToolchain.Getauxval.Race
import LdbToolchain.Glob.Listing
import LdbToolchain.Lib.Cells
import LdbToolchain.Tfg.Keyboard
import LdbToolchain.Tfg.Screen
import LdbToolchain.Vdso.Clock
import LdbToolchain.Lib.Binary
import LdbToolchain.Math.Reduction
import LdbToolchain.Math.Tables
import LdbToolchain.Math.Log
import LdbToolchain.Math.Pow
import LdbToolchain.Math.PowCases
import LdbToolchain.Math.ExpTables
import LdbToolchain.Math.Exp
import LdbToolchain.Math.ExpCases
import LdbToolchain.Math.Exp2f
import LdbToolchain.Math.PowHead
import LdbToolchain.Math.LogHead
