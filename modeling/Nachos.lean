import Nachos.Library.PackedBits
import Nachos.Library.ByteStore
import Nachos.Library.LittleEndian
import Nachos.Library.Runs
import Nachos.Lib.Bitmap
import Nachos.Machine.Translate
import Nachos.Machine.Effects
import Nachos.Machine.Mipssim
import Nachos.Userprog.AddrSpace
import Nachos.Userprog.FrameOwnership
import Nachos.Userprog.Loader
import Nachos.Threads.Synch
import Nachos.Threads.StartProcess
import Nachos.Threads.ArgumentBlock
import Nachos.Threads.ArgumentPassing
import Nachos.Threads.PTable
import Nachos.Threads.PTableMoves
import Nachos.Threads.PTableInvariants
import Nachos.Threads.ExecCalls
import Nachos.Threads.ParentLinks
import Nachos.Threads.ProcessEnd
import Nachos.Threads.Handshake
import Nachos.Threads.JoinExit
import Nachos.Threads.WaitQueues
import Nachos.Lib.List
import Nachos.Threads.SemaphoreRuns
import Nachos.Threads.Monitor
import Nachos.Threads.MonitorInvariants
import Nachos.Threads.MonitorSafety
import Nachos.Threads.MonitorRoutines
import Nachos.Threads.SynchList
import Nachos.Threads.Scheduler
import Nachos.Machine.Interrupt
import Nachos.Threads.Dispatch
import Nachos.Threads.DispatchInvariants
import Nachos.Machine.VirtualMemory
import Nachos.Machine.Precise
import Nachos.Machine.LoadDelay
import Nachos.Library.Ends
import Nachos.Filesys.OpenFile
import Nachos.Userprog.Ksyscall
import Nachos.Userprog.Exception
import Nachos.Userprog.Validation
import Nachos.Threads.STable
import Nachos.Threads.STableRuns
import Nachos.Machine.Network
import Nachos.Threads.SynchDevice
import Nachos.Filesys.SynchDisk
import Nachos.Userprog.SynchConsole
import Nachos.Network.Post
import Nachos.Network.PostDelivery
import Nachos.Library.Ledger
import Nachos.Network.MailDelivery
import Nachos.Network.PostOffice
import Nachos.Userprog.CallConvention
import Nachos.Userprog.ConsoleSlots
import Nachos.Userprog.DescriptorLeaks
import Nachos.Userprog.DescriptorTable
import Nachos.Userprog.HandlerFrames
import Nachos.Userprog.Interruptible
import Nachos.Userprog.OpenedFiles
import Nachos.Userprog.UserBuffer
import Nachos.Library.DoubleWord
import Nachos.Machine.Multiplication
import Nachos.Userprog.SpaceSize
import Nachos.Userprog.CallHistory
import Nachos.Userprog.FileNames
import Nachos.Userprog.SendSockets
import Nachos.Userprog.RegularFiles
import Nachos.Userprog.FileRead
import Nachos.Userprog.FileWrite
import Nachos.Userprog.FileSeek
import Nachos.Userprog.FileCopy
import Nachos.Threads.LockClients
import Nachos.Userprog.ConsoleInput
import Nachos.Library.Decimal
import Nachos.Userprog.NumberText
import Nachos.Userprog.ReadNum
import Nachos.Library.Ownership
import Nachos.Filesys.FileHeader
import Nachos.Filesys.DiskFile
import Nachos.Filesys.Directory
import Nachos.Machine.Executed
import Nachos.Machine.Shifts
import Nachos.Machine.Arithmetic
import Nachos.Machine.Unaligned
import Nachos.Userprog.AddrLock
import Nachos.Library.CStrings
import Nachos.Threads.ExecNames
import Nachos.Filesys.DiskFileSystem
import Nachos.Filesys.CreateRemove
import Nachos.Filesys.SectorOwnership
import Nachos.Filesys.FileCapacity
import Nachos.Filesys.FileTransfers
import Nachos.Userprog.ConsoleLines
import Nachos.Coff2noff.Conversion
import Nachos.Coff2noff.SectionsCopied
import Nachos.Coff2noff.ImagePreserved
import Nachos.Library.Simulation
import Nachos.Lib.BitmapSet
import Nachos.Lib.PointerList
import Nachos.Lib.ListSequence
import Nachos.Library.StableSort
import Nachos.Lib.SortedList
import Nachos.Library.Buckets
import Nachos.Lib.Hash
import Nachos.Lib.HashMap
import Nachos.Library.Slots
import Nachos.Filesys.DirectoryMap
import Nachos.Machine.Disk
import Nachos.Userprog.KernelTranslate
import Nachos.Userprog.CopyInOut
import Nachos.Library.LastWrite
import Nachos.Threads.StringWrites
import Nachos.Library.FileStore
import Nachos.Filesys.FreeSpace
import Nachos.Filesys.StoredFiles
import Nachos.Filesys.StoreRefinement
import Nachos.Threads.CopyPrint
import Nachos.Machine.Alike
import Nachos.Threads.Multiprogramming
import Nachos.Threads.Isolation
import Nachos.Machine.Alarm
import Nachos.Threads.TimeSlicing
import Nachos.Coff2noff.ProgramLoaded
