import Xv6.Kernel.Console.LineEditor
import Xv6.Kernel.Exec.Args
import Xv6.Kernel.Exec.ReadOnly
import Xv6.Kernel.Fs.Capacity
import Xv6.Kernel.Fs.Coherence
import Xv6.Kernel.Log.GroupCommit
import Xv6.Kernel.Log.Waiters
import Xv6.Kernel.Memmove
import Xv6.Kernel.Pipe.Delivery
import Xv6.Kernel.Pipe.Sleep
import Xv6.Kernel.Proc.Kill
import Xv6.Kernel.Proc.Pids
import Xv6.Kernel.Proc.Trace
import Xv6.Kernel.Sleeplock
import Xv6.Kernel.Spinlock
import Xv6.Kernel.Tasks.Runs
import Xv6.Kernel.Uart
import Xv6.Kernel.Vm.Freemem
import Xv6.System.Failures
import Xv6.System.Holes
import Xv6.System.Ownership
import Xv6.System.Paths
import Xv6.System.Trees
import Xv6.System.Writes
import Xv6.User.Grep
import Xv6.User.Printf
import Xv6.User.Sh.Accepts
import Xv6.User.Umalloc.Request
