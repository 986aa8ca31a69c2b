import EnvirMonitor.Sensor.Resync
import EnvirMonitor.Serial.LineReceiver
import EnvirMonitor.Ethernet.Preemption
import EnvirMonitor.Ethernet.Receive
import EnvirMonitor.Ethernet.Enabled
import EnvirMonitor.Ethernet.Interrupt
import EnvirMonitor.Allocator.Invariant
import EnvirMonitor.Allocator.LwipMemory
import EnvirMonitor.Timer.SysTick
import EnvirMonitor.Client.Handle
import EnvirMonitor.Client.Flag
import EnvirMonitor.Client.Command
import EnvirMonitor.Server.Ownership
import EnvirMonitor.Server.Window
import EnvirMonitor.Firmware.MainLoop
import EnvirMonitor.Allocator.LastFit
import EnvirMonitor.Allocator.InteriorFree
import EnvirMonitor.Ethernet.Drain
import EnvirMonitor.Lwip.Chain
import EnvirMonitor.Client.Receive
import EnvirMonitor.Server.Receive
import EnvirMonitor.Lwip.SendLoop
import EnvirMonitor.Client.Upload
import EnvirMonitor.Firmware.Senddata
import EnvirMonitor.Display.Interrupted
import EnvirMonitor.Display.Wire
import EnvirMonitor.Allocator.Realloc
import EnvirMonitor.Allocator.LwipComm
import EnvirMonitor.Serial.LongLine
import EnvirMonitor.Machine.BoundedWait
import EnvirMonitor.Machine.Owners
import EnvirMonitor.Sensor.Dht11
import EnvirMonitor.Sensor.TempHum
import EnvirMonitor.Display.StatusText
import EnvirMonitor.Display.Character
import EnvirMonitor.Display.CharacterRun
import EnvirMonitor.Server.Connections
import EnvirMonitor.Server.Close
import EnvirMonitor.Machine.CounterLoop
import EnvirMonitor.Machine.ArrayReads
import EnvirMonitor.Display.Number
import EnvirMonitor.Display.Fill
import EnvirMonitor.Display.Bitmap
import EnvirMonitor.Timer.Sampling
import EnvirMonitor.Machine.EndAround
import EnvirMonitor.Lwip.Checksum
import EnvirMonitor.Lwip.Segment
import EnvirMonitor.Lwip.Ip
import EnvirMonitor.Lwip.Icmp
import EnvirMonitor.Machine.Tiling
import EnvirMonitor.Machine.ByteMemory
import EnvirMonitor.Heap.Memory
import EnvirMonitor.Heap.Layout
import EnvirMonitor.Heap.Steps
import EnvirMonitor.Heap.Run
import EnvirMonitor.Machine.DeltaQueue
import EnvirMonitor.Lwip.Timeouts
import EnvirMonitor.Lwip.CyclicTimers
import EnvirMonitor.Lwip.TimerRun
import EnvirMonitor.Machine.SlotTable
import EnvirMonitor.Arp.Frames
import EnvirMonitor.Arp.Table
import EnvirMonitor.Arp.Steps
import EnvirMonitor.Arp.Find
import EnvirMonitor.Arp.Events
import EnvirMonitor.Arp.Operations
import EnvirMonitor.Arp.Run
import EnvirMonitor.Arp.Cache
import EnvirMonitor.Arp.Resolution
import EnvirMonitor.Arp.Network
import EnvirMonitor.Machine.SerialNumber
import EnvirMonitor.Machine.Slices
import EnvirMonitor.Tcp.Pcb
import EnvirMonitor.Tcp.Output
import EnvirMonitor.Tcp.Receive
import EnvirMonitor.Tcp.Input
import EnvirMonitor.Tcp.Stream
import EnvirMonitor.Tcp.Queue
import EnvirMonitor.Tcp.Write
import EnvirMonitor.Tcp.Outgoing
import EnvirMonitor.Tcp.Acknowledge
import EnvirMonitor.Tcp.Receiver
import EnvirMonitor.Tcp.Closing
import EnvirMonitor.Tcp.Endpoint
import EnvirMonitor.Tcp.Callbacks
import EnvirMonitor.Tcp.Step
import EnvirMonitor.Tcp.Link
import EnvirMonitor.Tcp.Delivery
