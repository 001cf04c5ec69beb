import Xv6.Log.Crash
import Xv6.Log.Reservation
import Xv6.Log.PinInvariant
import Xv6.Fs.Reads
import Xv6.Fs.Failures
import Xv6.Fs.Transaction
import Xv6.Ipc.PipeDelivery
import Xv6.Ipc.PipeWakeup
import Xv6.Proc.SleepLockWakeup
import Xv6.Proc.Reap
import Xv6.Proc.Pid
import Xv6.Virtio.Protocol
import Xv6.Console.Discipline
import Xv6.Sched.Switch
import Xv6.Malloc.Process
import Xv6.Shell.Strings
import Xv6.Grep.Lines
import Xv6.Vm.Runs
import Xv6.Xargs.Runs
import Xv6.Proc.Fork
import Xv6.Fs.UserReads
import Xv6.Fs.Directories
import Xv6.Memmove
import Xv6.Printf.Kernel
import Xv6.Printf.User
