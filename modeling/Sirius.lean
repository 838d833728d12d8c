import Sirius.Library.Outcomes
import Sirius.Library.Linked
import Sirius.Library.Bytes
import Sirius.Library.Runs
import Sirius.Library.Recency
import Sirius.Cfs.Lookup
import Sirius.Cfs.StreamDurability
import Sirius.Cfs.OpenAgreement
import Sirius.Cfs.ReadCoherence
import Sirius.Cfs.CreateAtomicity
import Sirius.Cfs.CopyRoundTrip
import Sirius.Net.DatagramDelivery
import Sirius.Net.TcpReceive
import Sirius.Net.RoundTrip
import Sirius.Net.ReceiveBounds
import Sirius.Library.Decimal
import Sirius.Stdio.Numerals
import Sirius.Stdio.Format
import Sirius.Stdio.FormatAgreement
import Sirius.Stdio.PipeFifo
import Sirius.Gui.PaintList
import Sirius.Library.Moves
import Sirius.Library.Unsigned
import Sirius.Library.Editor
import Sirius.Gui.EditBox
import Sirius.Gui.Terminal
import Sirius.Gui.Painting
import Sirius.Gui.Launcher
import Sirius.Gui.Bitmap
import Sirius.Gui.ClientList
import Sirius.Gui.Messages
import Sirius.Library.AppendLog
import Sirius.Net.Arp
import Sirius.Driver.Rtc
import Sirius.Library.Attempts
import Sirius.Driver.Sata
import Sirius.Driver.Mouse
import Sirius.Driver.Keyboard
import Sirius.Library.Walks
import Sirius.Net.Dhcp
import Sirius.Library.Labels
import Sirius.Net.DnsQuestion
import Sirius.Net.UdpReceive
import Sirius.Memory.PageInvariant
import Sirius.Memory.FrameBounds
import Sirius.Memory.DmaContiguity
import Sirius.Process.CpuExclusivity
import Sirius.Process.ProcessTree
import Sirius.Process.PoolAccounting
import Sirius.Process.SchedulerLife
import Sirius.Exec.ElfImage
import Sirius.Cfs.ImageHistory
import Sirius.Cfs.CreateIntegrity
import Sirius.Cfs.RemoveIntegrity
import Sirius.Library.OnesComplement
import Sirius.Net.Checksum
import Sirius.Net.Loopback
import Sirius.Memory.DeviceMap
import Sirius.Memory.PageBounds
import Sirius.Library.LazyRing
import Sirius.Stdio.Console
import Sirius.Stdio.ConsoleFifo
import Sirius.Net.PortExclusivity
import Sirius.Net.ControlFlags
import Sirius.Net.TcpAccounting
import Sirius.Net.TcpIsolation
import Sirius.Net.StreamReads
import Sirius.Net.DnsAnswer
import Sirius.Cfs.Integrity
import Sirius.Library.Words
import Sirius.Library.Strings
import Sirius.Exec.Shell
import Sirius.Process.RoundRobin
import Sirius.Process.Replies
import Sirius.Process.Waiting
import Sirius.Process.ZeroedAllocation
import Sirius.Exec.AddressSpace
import Sirius.Cfs.DirectoryNames
import Sirius.Cfs.Rename
import Sirius.Cfs.UniqueNames
import Sirius.Net.ReceiveDrivers
import Sirius.Cfs.StreamGrowth
import Sirius.Library.Counting
import Sirius.Exec.ElfLoops
import Sirius.Cfs.EntryUpdate
import Sirius.Cfs.NameCodec
import Sirius.Cfs.OpenCreates
import Sirius.Cfs.PathResolution
import Sirius.Cfs.DamagedChain
import Sirius.Cfs.WorkingDirectory
import Sirius.Library.Ledger
import Sirius.Cfs.StreamOwnership
import Sirius.Cfs.FullDisk
import Sirius.Driver.Msi
import Sirius.Library.Positional
import Sirius.Library.StoredText
import Sirius.Stdio.Comparison
import Sirius.Stdio.LineInput
import Sirius.Stdio.NumeralBuffers
import Sirius.Stdio.KernelFormat
import Sirius.Library.FatPartition
import Sirius.Library.Machines
import Sirius.Stdlib.Qsort
import Sirius.Library.Tokens
import Sirius.Stdlib.Strtok
import Sirius.Stdlib.Strtol
import Sirius.Stdlib.NumberRoundTrip
import Sirius.Net.InetAddr
import Sirius.Driver.AtaChannel
import Sirius.Driver.Ide
import Sirius.Driver.IdeSector
import Sirius.Driver.IdeTransfers
import Sirius.Driver.Pci
import Sirius.Net.ArpNetwork
import Sirius.Lua.Programs
