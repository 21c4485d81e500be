import Xv6.Lib.Lts
import Xv6.Lib.Tally
import Xv6.Lib.Claims
import Xv6.Lib.Code
import Xv6.Lib.Prog
import Xv6.Lib.Fifo
import Xv6.Lib.Ring
import Xv6.Lib.Queue
import Xv6.Lib.Trail
import Xv6.Lib.Tiling
import Xv6.Param
import Xv6.Lib.Words
import Xv6.Lib.Writes
import Xv6.Log.Group
import Xv6.Log.GroupCommit
import Xv6.Log.Space
import Xv6.Log.Disk
import Xv6.Log.Crash
import Xv6.Fs.Format
import Xv6.Fs.Store
import Xv6.Fs.State
import Xv6.Fs.Calls
import Xv6.Fs.Protocol
import Xv6.Fs.Balance
import Xv6.Fs.Accounting
import Xv6.Fs.Blocks
import Xv6.Fs.Layout
import Xv6.Fs.Contents
import Xv6.Fs.Reserve
import Xv6.Fs.Alone
import Xv6.Fs.SharedFile
import Xv6.Fs.Reclaim
import Xv6.Fs.Pipes
import Xv6.Buf.Cache
import Xv6.Buf.Invariant
import Xv6.Buf.Commit
import Xv6.Buf.Refine
import Xv6.Buf.Exhaust
import Xv6.Sched.Table
import Xv6.Sched.System
import Xv6.Sched.Locking
import Xv6.Sched.Priority
import Xv6.Sched.RoundRobin
import Xv6.Sched.Sleep
import Xv6.Sched.Monitor
import Xv6.Sched.Outline
import Xv6.Sched.Sleeplock
import Xv6.Sched.Events
import Xv6.Sched.Family
import Xv6.Sched.Wait
import Xv6.Sched.Slots
import Xv6.Sched.Kill
import Xv6.Sched.Diary
import Xv6.Sched.Pstat
import Xv6.Sched.Memory
import Xv6.Sched.Loaded
import Xv6.Vm.Memory
import Xv6.Vm.Paging
import Xv6.Vm.Ownership
import Xv6.Vm.Walk
import Xv6.Vm.Free
import Xv6.Vm.Setup
import Xv6.Vm.Roots
import Xv6.Vm.Alloc
import Xv6.Vm.Copy
import Xv6.Vm.Exec
import Xv6.Vm.Shape
import Xv6.Vm.Pages
import Xv6.Vm.Load
import Xv6.Vm.Segments
import Xv6.Vm.Stack
import Xv6.Vm.Robust
import Xv6.Vm.Process
import Xv6.Vm.Syscall
import Xv6.Vm.System
import Xv6.Vm.Calls
import Xv6.Vm.Invariant
import Xv6.Vm.Boot
import Xv6.Vm.Conserve
import Xv6.Vm.Clone
import Xv6.Vm.Sbrk
import Xv6.Vm.Fetch
import Xv6.Vm.Copyout
import Xv6.Vm.Args
import Xv6.Vm.Buffer
import Xv6.Vm.Protect
import Xv6.Vm.Flat
import Xv6.Pipe.Program
import Xv6.Pipe.Channel
import Xv6.Sh.Parser
import Xv6.Sh.Grammar
import Xv6.Sh.Scan
import Xv6.Sh.Sound
import Xv6.Sh.Correct
import Xv6.Sh.Run
import Xv6.Console.Input
import Xv6.Console.Discipline
import Xv6.Ide.Driver
import Xv6.Ide.Refine
import Xv6.Umalloc.Heap
import Xv6.Umalloc.Free
import Xv6.Umalloc.Blocks
import Xv6.Umalloc.Malloc
import Xv6.Umalloc.Sbrk
import Xv6.Kern.Memmove
import Xv6.Kern.Spinlock
import Xv6.Grep.Match
import Xv6.Grep.Lines
