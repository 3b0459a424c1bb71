import BirdOS.Spinlock
import BirdOS.Mm.KallocPages
import BirdOS.Mm.SpaceBounds
import BirdOS.Mm.LazyCopy
import BirdOS.Mm.SpaceIsolation
import BirdOS.Proc.Runq
import BirdOS.Proc.IpcDeadlock
import BirdOS.Proc.Messagequeue
import BirdOS.Proc.MqRefs
import BirdOS.Proc.Alarm
import BirdOS.Proc.Pipe
import BirdOS.Proc.ExecArgs
import BirdOS.Proc.Sbrk
import BirdOS.Driver.Console
import BirdOS.Driver.VirtioDisk
import BirdOS.Fs.Descriptors
import BirdOS.Fs.Paths
import BirdOS.Proc.FreshSlots
import BirdOS.Mm.MmapWrite
import BirdOS.Fs.JournalCrash
import BirdOS.Fs.BioInvariant
import BirdOS.Net.Udp
import BirdOS.Net.Sockets
import BirdOS.Net.E1000Tx
import BirdOS.Net.E1000Rx
import BirdOS.Strings
