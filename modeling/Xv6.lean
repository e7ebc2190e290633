import Xv6.Lib.Run
import Xv6.Lib.Machine
import Xv6.Lib.Chain
import Xv6.Lib.Fold
import Xv6.Lib.Writes
import Xv6.Lib.Hoare
import Xv6.Lib.Bytes
import Xv6.Lib.Cmd
import Xv6.Lib.Dll
import Xv6.Lib.Count
import Xv6.Lib.Records
import Xv6.Basic
import Xv6.Process.Table
import Xv6.Process.Queue
import Xv6.Process.Code
import Xv6.Process.Step
import Xv6.Process.Frame
import Xv6.Process.Shape
import Xv6.Process.Core
import Xv6.Process.Ready
import Xv6.Lib.Arrival
import Xv6.Process.Entry
import Xv6.Process.Order
import Xv6.Process.Turn
import Xv6.Process.Fcfs
import Xv6.Process.Pbs
import Xv6.Process.RoundRobin
import Xv6.Process.Trap
import Xv6.Process.Slice
import Xv6.Process.Account
import Xv6.Process.Kill
import Xv6.Lib.Scan
import Xv6.Process.Pid
import Xv6.Process.Time
import Xv6.Process.Family
import Xv6.Process.Wait
import Xv6.Process.Sleep
import Xv6.Process.Wakeup
import Xv6.Log.Disk
import Xv6.Log.Crash
import Xv6.Log.Ops
import Xv6.Log.Group
import Xv6.Log.Blocks
import Xv6.Log.Reserve
import Xv6.Fs.Itrunc
import Xv6.Fs.Bmap
import Xv6.Fs.Own
import Xv6.Fs.Iput
import Xv6.Fs.Content
import Xv6.Fs.Inodes
import Xv6.Fs.Dirent
import Xv6.Fs.Entries
import Xv6.Fs.Dir
import Xv6.Fs.File
import Xv6.Fs.Sysfile
import Xv6.Fs.System
import Xv6.Fs.Store
import Xv6.Fs.DirSpec
import Xv6.Fs.Refs
import Xv6.Fs.Descriptors
import Xv6.Fs.Walk
import Xv6.Syscall.Arg
import Xv6.Syscall.Path
import Xv6.Syscall.Call
import Xv6.Syscall.Copy
import Xv6.Syscall.Access
import Xv6.Lib.Ring
import Xv6.Pipe.Code
import Xv6.Pipe.Fifo
import Xv6.Pipe.Wakeup
import Xv6.Console.Code
import Xv6.Console.Line
import Xv6.Ide.Code
import Xv6.Ide.Queue
import Xv6.Bio.Code
import Xv6.Bio.Cache
import Xv6.Bio.Step
import Xv6.Bio.Error
import Xv6.Bio.Coherent
import Xv6.Lib.Tiling
import Xv6.Lib.Cycle
import Xv6.Umalloc.Code
import Xv6.Umalloc.Free
import Xv6.Umalloc.Malloc
import Xv6.Umalloc.Calls
import Xv6.Lib.Slots
import Xv6.Vm.Code
import Xv6.Vm.Space
import Xv6.Vm.Walk
import Xv6.Vm.Tables
import Xv6.Vm.Alloc
import Xv6.Vm.Proc
import Xv6.Vm.Boot
import Xv6.Vm.Grow
import Xv6.Vm.Range
import Xv6.Vm.Exec
import Xv6.Vm.Load
import Xv6.Vm.Copy
import Xv6.Vm.Args
import Xv6.Vm.Image
import Xv6.Shell.Code
import Xv6.Shell.Lex
import Xv6.Shell.Grammar
import Xv6.Shell.Terminate
import Xv6.Ulib.Memmove
import Xv6.Lib.Lang
import Xv6.Lib.Lines
import Xv6.Grep.Match
import Xv6.Grep.Chunks
import Xv6.Mp.Scan
import Xv6.Switch.Code
import Xv6.Switch.Intena
import Xv6.Umalloc.Sbrk
import Xv6.Fs.Shared
import Xv6.Fs.Budget
import Xv6.Mkfs.Code
import Xv6.Mkfs.Image
