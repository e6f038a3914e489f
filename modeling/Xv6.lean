import Xv6.Library.Bytes
import Xv6.Library.BlockDev
import Xv6.Param
import Xv6.String
import Xv6.Log.Transaction
import Xv6.Log.Crash
import Xv6.Pipe
import Xv6.Fs.Layout
import Xv6.Fs.Mkfs
import Xv6.Fs.FileMap
import Xv6.Fs.MkfsImage
import Xv6.Fs.MkfsRun
import Xv6.Library.Scan
import Xv6.Fs.Blocks
import Xv6.Fs.Inodes
import Xv6.Fs.Own
import Xv6.Fs.Write
import Xv6.Fs.Trunc
import Xv6.Fs.Dir
import Xv6.Fs.Itable
import Xv6.Fs.Boot
import Xv6.Fs.Format
import Xv6.Buddy.Alloc
import Xv6.Library.Machine
import Xv6.Library.Returns
import Xv6.Proc.Table
import Xv6.Proc.Tree
import Xv6.Proc.Sleep
import Xv6.Console
import Xv6.File.Table
import Xv6.Library.Count
import Xv6.File.Refs
import Xv6.Bio
import Xv6.Vm.Riscv
import Xv6.Vm.PageTable
import Xv6.Vm.Walk
import Xv6.Vm.Map
import Xv6.Vm.Copy
import Xv6.Vm.Uvm
import Xv6.Vm.UvmCopy
import Xv6.Printf
import Xv6.Library.StarPattern
import Xv6.User.Grep
import Xv6.Proc.Pid
import Xv6.Fs.Path
import Xv6.Library.FreeList
import Xv6.User.Umalloc
import Xv6.User.UmallocShape
import Xv6.User.UmallocClient
import Xv6.Library.Dyadic
import Xv6.Buddy.Tree
import Xv6.Buddy.Rep
import Xv6.Buddy.Calls
import Xv6.Buddy.Init
import Xv6.Buddy.Client
import Xv6.Fs.Sysfile
