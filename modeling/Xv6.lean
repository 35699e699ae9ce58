import Xv6.Bio.Refine
import Xv6.Dev.Console
import Xv6.Dev.Printf
import Xv6.Fs.Bitmap
import Xv6.Fs.Fileread
import Xv6.Fs.Paths
import Xv6.Fs.Reserve
import Xv6.Fs.ShortWrite
import Xv6.Log.Reservation
import Xv6.Log.Restart
import Xv6.Mem.Copystr
import Xv6.Mem.Fork
import Xv6.Mem.Memmove
import Xv6.Mem.Smp
import Xv6.Pipe.Wakeups
import Xv6.Proc.Argv
import Xv6.Proc.Nesting
import Xv6.Proc.OutOfMemory
import Xv6.Proc.Ps
import Xv6.Proc.Reap
import Xv6.Proc.Sched
import Xv6.Proc.Sleep
import Xv6.Proc.Sleeplock
import Xv6.Proc.Ticks
import Xv6.Proc.Va2pa
import Xv6.User.Grep
import Xv6.User.Words
import Xv6.Virtio.Agreement
import Xv6.World
