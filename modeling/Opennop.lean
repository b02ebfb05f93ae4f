import Opennop.Buffer.Fifo
import Opennop.Buffer.Tracked
import Opennop.Cli.Dispatch
import Opennop.Cli.Rates
import Opennop.Driver.Watchdog
import Opennop.Ipc.Configured
import Opennop.Ipc.Delivery
import Opennop.Ipc.Handshake
import Opennop.Ipc.Timeout
import Opennop.Node.Accelerated
import Opennop.Node.Announce
import Opennop.Node.Closing
import Opennop.Node.Keepalive
import Opennop.Node.Fitting
import Opennop.Node.Segments
import Opennop.Node.Threads
import Opennop.Node.Transparent
import Opennop.Packet.NoRoom
import Opennop.Packet.RoundTrip
import Opennop.Packet.Values
import Opennop.Quicklz.Payload
import Opennop.Session.Teardown
import Opennop.Session.Workers
import Opennop.Wccp.Context
import Opennop.Wccp.Outgrown
import Opennop.Wccp.RouterView
