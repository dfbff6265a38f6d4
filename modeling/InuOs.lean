import InuOs.ArpTable
import InuOs.BufferCache
import InuOs.Copyout
import InuOs.FileRefs
import InuOs.FileWriteCall
import InuOs.Grep
import InuOs.I8254Recv
import InuOs.Icmp
import InuOs.IdeStatus
import InuOs.Kill
import InuOs.LogCrash
import InuOs.LogSpace
import InuOs.LostWakeup
import InuOs.Madt
import InuOs.Memmove
import InuOs.MkfsRead
import InuOs.Pid
import InuOs.Pipe
import InuOs.Printint
import InuOs.ShParse
import InuOs.Sleeplock
import InuOs.SysSleep
import InuOs.Syscall.ChunkLog
import InuOs.Syscall.Path
import InuOs.SyscallArgs
import InuOs.TcpAck
import InuOs.TcpClients
import InuOs.UserHeap
