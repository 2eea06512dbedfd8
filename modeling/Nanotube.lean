import Nanotube.Lib.Runs
import Nanotube.Lib.Scripts
import Nanotube.Lib.Ring
import Nanotube.Lib.Frames
import Nanotube.Lib.Loops
import Nanotube.Lib.Steering
import Nanotube.Device.Queue
import Nanotube.Device.Ecm
import Nanotube.Device.ReadPath
import Nanotube.Device.Delivery
import Nanotube.Device.Output
import Nanotube.Device.Descriptor
import Nanotube.Device.Usb
import Nanotube.Irc.Message
import Nanotube.Irc.Recv
import Nanotube.Irc.Client
import Nanotube.Irc.Lifetime
import Nanotube.Device.Effects
import Nanotube.Device.Walks
import Nanotube.Device.Enumeration
import Nanotube.Device.Looks
import Nanotube.Device.Scripted
import Nanotube.Device.Bounds
import Nanotube.Device.Configurations
import Nanotube.Device.Layout
import Nanotube.Device.Binding
import Nanotube.Device.Conforming
import Nanotube.Device.Coherence
import Nanotube.Device.Selections
import Nanotube.Irc.Arrays
import Nanotube.Lib.Timers
import Nanotube.Lwip.Timeouts
import Nanotube.Irc.Effects
import Nanotube.Irc.Framing
import Nanotube.Irc.Release
import Nanotube.Device.Registration
import Nanotube.Irc.Locality
import Nanotube.Irc.Setup
import Nanotube.Device.Buffers
import Nanotube.Device.Transmit
import Nanotube.Device.Agreement
import Nanotube.Device.Control
import Nanotube.Irc.Ping
import Nanotube.Device.Mac
import Nanotube.Irc.Identified
import Nanotube.Device.Filter
import Nanotube.Device.Mtu
import Nanotube.Irc.SendRaw
import Nanotube.Lib.Simulation
import Nanotube.Lwip.Pbuf
import Nanotube.TftpServer.Model
import Nanotube.TftpServer.Transfers
import Nanotube.TftpServer.Uploads
import Nanotube.TftpServer.Download
import Nanotube.TftpServer.Request
import Nanotube.Lib.Wire
import Nanotube.Lwip.Dns.Promises
import Nanotube.Lwip.Dns.Replies
import Nanotube.Lwip.Arp.Cache
import Nanotube.Lwip.Arp.Resolution
import Nanotube.Lib.RefCounts
import Nanotube.Lwip.PbufRefs
import Nanotube.Lwip.Checksum.Passes
import Nanotube.Lwip.Packets
import Nanotube.Lwip.CyclicTimers.Calls
