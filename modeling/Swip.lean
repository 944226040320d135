import Swip.Library.Run
import Swip.Library.Stuffing
import Swip.Library.Heap
import Swip.Library.Fifo
import Swip.Library.CString
import Swip.Library.Pieces
import Swip.Library.Tiling
import Swip.Library.Delta
import Swip.Library.OnesComplement
import Swip.Library.Parts
import Swip.Wire
import Swip.Bridge.Slip
import Swip.Bridge.Worker
import Swip.Bridge.Recovery
import Swip.Bridge.Uart
import Swip.Bridge.Chunks
import Swip.Bridge.Resolution
import Swip.Device.Output
import Swip.Device.Pbuf
import Swip.Device.PbufChain
import Swip.Device.Slipif
import Swip.Device.SlipifFill
import Swip.Device.Reception
import Swip.Device.Stored
import Swip.Device.Poll
import Swip.Device.Sio
import Swip.Core.Mem
import Swip.Core.MemLayout
import Swip.Core.MemAlloc
import Swip.Core.MemRuns
import Swip.Core.Timeouts
import Swip.Core.TimeoutRuns
import Swip.Core.Chksum
import Swip.Core.Integrity
import Swip.Core.Icmp
import Swip.Core.Reass
import Swip.Core.ReassQueue
import Swip.Core.ReassArrival
import Swip.Core.ReassRuns
import Swip.Core.ReassWhole
import Swip.Core.ReassComplete
import Swip.Core.Frag
import Swip.Link.DeviceToHost
import Swip.Link.HostToDevice
import Swip.Link.Tasks
import Swip.Link.Loss
import Swip.Link.Decoders
import Swip.Apps.Tcp
import Swip.Apps.Echo
import Swip.Apps.EchoSend
import Swip.Apps.EchoRuns
import Swip.Apps.EchoChain
import Swip.Apps.EchoServer
import Swip.Apps.HttpClient
import Swip.Apps.HttpSend
import Swip.Apps.HttpRuns
import Swip.Apps.HttpPool
import Swip.Apps.HttpSingle
import Swip.Apps.HttpProgress
import Swip.Apps.Httpd
import Swip.Apps.HttpdCgi
import Swip.Apps.HttpdRequest
import Swip.Apps.HttpdSegments
import Swip.Apps.HttpdSend
import Swip.Apps.HttpdServe
import Swip.Apps.HttpdOwn
import Swip.Apps.HttpdProgress
