import Xv6.Lib.Eval
import Xv6.ByteString
import Xv6.Crash
import Xv6.Image
import Xv6.ReadWrite
import Xv6.Cache
import Xv6.Sleep
import Xv6.BufferCache
import Xv6.InodeCache
import Xv6.OpenFiles
import Xv6.Uthread
import Xv6.KillSleep
import Xv6.Lib.Access
import Xv6.UserMem
import Xv6.Interrupts
import Xv6.Lib.StateWp
import Xv6.Lib.TwoLevel
import Xv6.Vm
import Xv6.VmSpace
import Xv6.VmMap
import Xv6.UthreadSched
import Xv6.Lib.Tiling
import Xv6.Umalloc
import Xv6.Sh
import Xv6.ShGrammar
import Xv6.ShPlumbing
import Xv6.ShRedir
import Xv6.Memmove
import Xv6.Grep
import Xv6.Mp
import Xv6.FileWrite
import Xv6.Directory
import Xv6.Paths
import Xv6.Mkfs
import Xv6.MkfsImage
import Xv6.MkfsRead
import Xv6.MkfsMain
import Xv6.VmDealloc
import Xv6.VmGrow
import Xv6.VmCopy
import Xv6.VmFree
import Xv6.Kalloc
