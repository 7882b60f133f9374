import BabyOS.MmComplete
import BabyOS.EtherCrc
import BabyOS.VmProtect
import BabyOS.VmForkWhole
import BabyOS.VmKernelStore
import BabyOS.ProcReap
import BabyOS.Pipe
import BabyOS.FsBounds
import BabyOS.FsPut
import BabyOS.BlockSeq
import BabyOS.BlockShare
import BabyOS.SockRingRun
import BabyOS.StreamOffPath
import BabyOS.StreamWrite
import BabyOS.ArpQueue
import BabyOS.NetSend
import BabyOS.LocalListen
import BabyOS.SockReclaim
import BabyOS.VmNoLeak
import BabyOS.FileTable
import BabyOS.SignalFork
import BabyOS.DiskQueue
import BabyOS.SleepWake
import BabyOS.SchedFair
import BabyOS.StreamHandshake
import BabyOS.NetCarve
import BabyOS.NetChecksum
import BabyOS.DnsQuery
import BabyOS.DnsAnswer
import BabyOS.ArpCache
import BabyOS.PortSearch
import BabyOS.DgramBind
import BabyOS.PathNames
import BabyOS.InodeStore
import BabyOS.LocalRelease
import BabyOS.NextPid
import BabyOS.SegLoad
import BabyOS.MpConfig
import BabyOS.ParseIp
import BabyOS.StringLib
import BabyOS.NetQueue
import BabyOS.ObjPool
