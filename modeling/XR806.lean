import XR806.Nor.Cells
import XR806.Nor.Prog
import XR806.Nor.Answer
import XR806.Trans.Run
import XR806.Pm.Suspend
import XR806.Pm.Wakelock
import XR806.Flash.Hal
import XR806.Flash.Report
import XR806.Flash.EraseCover
import XR806.Image.Fdcm
import XR806.Image.FdcmLog
import XR806.Image.FdcmCut
import XR806.Image.Section
import XR806.Image.Cfg
import XR806.Image.CfgCut
import XR806.Boot.Uncompress
import XR806.Boot.Unpack
import XR806.Boot.Select
import XR806.AtCmd.Command
import XR806.AtCmd.Parameter
import XR806.Boot.Load
import XR806.Boot.Ram
import XR806.Boot.Secure
import XR806.Heap.SysHeap
import XR806.Tile.Blocks
import XR806.Heap.FreeList
import XR806.Heap.Refine
import XR806.Heap.Runs
import XR806.Image.SecCache
import XR806.Image.TzCache
import XR806.Wlan.Mbuf
import XR806.Wlan.MbufMem
import XR806.Wlan.MbufBuf
import XR806.Bits
import XR806.Efpg.Efuse
import XR806.Efpg.Region
import XR806.Efpg.Frame
import XR806.Console.Lines
import XR806.SmartConfig.Decode
import XR806.Ring
import XR806.SysCtrl.EventQueue
import XR806.Ota.Session
import XR806.Ota.Agree
import XR806.Ota.Download
import XR806.Ota.Verify
import XR806.AtCmd.Bounds
import XR806.SysCtrl.Publisher
import XR806.AtCmd.Queue
import XR806.AtCmd.Stream
import XR806.AtCmd.Framing
import XR806.Flash.Check
import XR806.Flash.Overwrite
import XR806.Image.Checksum
import XR806.Image.FdcmArea
import XR806.Image.ChainEnd
import XR806.Rtt.Ipc
import XR806.Rtt.Semaphore
import XR806.NullList
import XR806.Rtt.MessageQueue
import XR806.Rtt.Queue
import XR806.Timer.Contract
import XR806.Timer.RtThread
import XR806.Timer.FreeRtos
import XR806.Timer.Ports
import XR806.Rtt.Thread
import XR806.Heap.Memory
import XR806.Heap.Realloc
import XR806.Heap.Sizes
import XR806.Pm.Register
import XR806.Sdd.Search
import XR806.Efpg.BootHash
import XR806.Efpg.EfuseRom
import XR806.Console.Stream
import XR806.SmartConfig.DataDecode
import XR806.Pm.WakelockTimer
import XR806.Sdd.Save
import XR806.Wlan.MbufData
import XR806.SmartLink.Blink
import XR806.Crypto.Convey
import XR806.Crypto.Hash
import XR806.Audio.Pcm
import XR806.SmartLink.VoicePrint
import XR806.Chip.UartDma
import XR806.Chip.Dma
import XR806.AtCmd.Fields
import XR806.AtCmd.Config
import XR806.AtCmd.Positions
import XR806.AtCmd.Extend
import XR806.Ir.Nec
import XR806.Scr.RxBuf
import XR806.Scr.Apdu
import XR806.Scr.Atr
import XR806.Csi.Jpeg
import XR806.Chip.Spi
import XR806.Chip.UartReceive
import XR806.Sdc.Request
import XR806.Chip.I2c
import XR806.Buttons.Protocol
import XR806.Sdc.Descriptor
import XR806.Audio.I2s
import XR806.Audio.Dmic
import XR806.Pthread.Cond
import XR806.Pthread.Task
import XR806.Audio.SoundStream
import XR806.Cyclic
import XR806.Audio.ReverbBuffer
import XR806.Audio.ReverbPcm
import XR806.Net.Sntp
import XR806.Chip.Clocks
import XR806.Chip.Pwm
import XR806.Mem
import XR806.Keyed
import XR806.Dhcp.Options
import XR806.Dhcp.Leases
import XR806.Dhcp.Server
import XR806.Rtt.Mutex
import XR806.Rtt.Event
import XR806.Heap.Trace
import XR806.Ota.PingPong
