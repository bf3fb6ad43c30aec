import Csapp.Lib.Memory
import Csapp.Malloc.Mm
import Csapp.Lib.Ring
import Csapp.Malloc.Blocks
import Csapp.Malloc.FreeList
import Csapp.Malloc.Invariant
import Csapp.Malloc.Coalesce
import Csapp.Malloc.Walk
import Csapp.Malloc.Alloc
import Csapp.Malloc.Realloc
import Csapp.Lib.Run
import Csapp.Malloc.Run
import Csapp.Malloc.Safety
import Csapp.Bignum.PyLong
import Csapp.Lib.Digits
import Csapp.Bignum.Convert
import Csapp.Bignum.Arith
import Csapp.Bignum.Mul
import Csapp.Lib.Links
import Csapp.Lib.SortedList
import Csapp.Lsm.Chains
import Csapp.Lsm.Db
import Csapp.Lsm.Map
import Csapp.Lib.Framing
import Csapp.Lsm.Trace
import Csapp.Lsm.Wal
import Csapp.Lsm.Recover
import Csapp.Lib.Machine
import Csapp.Vm.Machines
import Csapp.Perf.Kernels
import Csapp.Vm.Lockstep
import Csapp.Perf.Smooth
import Csapp.Lib.Tiles
import Csapp.Cache.Trans
import Csapp.Cache.Transpose
import Csapp.Compiler.Assemble
import Csapp.Compiler.StackVm
import Csapp.Compiler.Gen
import Csapp.Compiler.Layout
import Csapp.Compiler.Exec
import Csapp.Compiler.Scope
import Csapp.Compiler.Loop
import Csapp.Compiler.IfElse
import Csapp.Compiler.Errors
import Csapp.Compiler.Independent
import Csapp.Lib.Interleave
import Csapp.Matmul.Multiply
import Csapp.Matmul.Parallel
import Csapp.Tsh.Jobs
import Csapp.Tsh.JobIds
import Csapp.Lib.CString
import Csapp.Tsh.Parse
import Csapp.Tsh.Shell
import Csapp.Tsh.Foreground
import Csapp.Tsh.Children
import Csapp.Lib.Recency
import Csapp.Proxy.Cache
import Csapp.Proxy.Lru
import Csapp.Lib.Count
import Csapp.Proxy.RwLock
import Csapp.Proxy.Doit
import Csapp.Proxy.Origin
import Csapp.Lib.BigEndian
import Csapp.Ydp.Packet
import Csapp.Ydp.Delivery
import Csapp.Dns.Message
import Csapp.Dns.Parse
import Csapp.Dns.RoundTrip
import Csapp.Lib.SortedMap
import Csapp.Store.InMemory
import Csapp.Store.LinkedList
import Csapp.Hoare.Intervals
import Csapp.Lib.Pull
import Csapp.Query.Iter
import Csapp.Query.Plan
import Csapp.Parsing.Parser
import Csapp.Lsm.Scan
import Csapp.KvStore.Failure
import Csapp.ReverseProxy.Cache
import Csapp.Lib.Firsts
import Csapp.Capture.Packet
import Csapp.Capture.Parse
import Csapp.Capture.Stream
import Csapp.Bignum.Bits
import Csapp.Bignum.Order
import Csapp.Store.RangeScan
import Csapp.Malloc.BestFit
import Csapp.Malloc.Growth
import Csapp.Compiler.Expr
import Csapp.Compiler.Passes
import Csapp.Bump.Allocator
import Csapp.Bump.Run
import Csapp.Capture.Modular
import Csapp.Capture.ModularRound
import Csapp.Capture.ModularLoop
import Csapp.DataLab.Float
import Csapp.Traceroute.Icmp
import Csapp.Traceroute.Decode
import Csapp.Store.SliceScan
import Csapp.Capture.Http
import Csapp.Lib.MaximalRun
import Csapp.Parsing.Words
import Csapp.Dns.Bounds
import Csapp.Lib.Buffer
import Csapp.Proxy.Tunnel
import Csapp.Proxy.Headers
import Csapp.DataLab.Trunc
import Csapp.Lib.Unroll
import Csapp.Perf.Unrolled
import Csapp.Matmul.Tiled
import Csapp.Parsing.OneOrMore
import Csapp.Vm.Regions
import Csapp.Lib.X86
import Csapp.Asm.Fib
import Csapp.Asm.Pangram
import Csapp.Compiler.Evaluate
import Csapp.Lib.GroupTree
import Csapp.Store.PrefixGroups
import Csapp.Shell.Args
import Csapp.Shell.Main
import Csapp.Shell.Lists
import Csapp.Lib.Window
import Csapp.Threads.Sbuf
import Csapp.Lib.Channel
import Csapp.Threads.Cake
import Csapp.Lib.Dispense
import Csapp.Threads.Counter
import Csapp.Lib.Fuel
import Csapp.Eval14.Parse
import Csapp.Eval14.Accepts
import Csapp.Eval14.Scanner
import Csapp.Eval14.Print
import Csapp.Eval14.Check
import Csapp.Store.IntSet
import Csapp.Lib.Cover
import Csapp.Perf.Rotate
import Csapp.Lib.Arrivals
import Csapp.Rio.Rio
import Csapp.Rio.Echo
import Csapp.Rio.Relay
import Csapp.Malloc.Room
import Csapp.Malloc.Driver
