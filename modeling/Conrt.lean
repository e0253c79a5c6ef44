import Conrt.Attach.Joint
import Conrt.Attach.Printing
import Conrt.Base.Hoare
import Conrt.Base.Outstanding
import Conrt.Base.Run
import Conrt.Base.Serial
import Conrt.Buf.Layout
import Conrt.Buf.Message
import Conrt.Buf.Overlap
import Conrt.Buf.Provided
import Conrt.Coio.CancelProtocol
import Conrt.Coio.Delivery
import Conrt.Coio.Drive
import Conrt.Coio.Interleave
import Conrt.Coio.Leases
import Conrt.Coio.Lending
import Conrt.Coio.Stale
import Conrt.Coio.Unwind
import Conrt.Container.Family
import Conrt.Container.Init
import Conrt.Daemon.Answers
import Conrt.Daemon.Asks
import Conrt.Daemon.Cache
import Conrt.Daemon.Closing
import Conrt.Daemon.Decode
import Conrt.Daemon.Demand
import Conrt.Daemon.Exits
import Conrt.Daemon.Frames
import Conrt.Daemon.Ledger
import Conrt.Daemon.Leftovers
import Conrt.Daemon.Lines
import Conrt.Daemon.Loops
import Conrt.Daemon.Namespaces
import Conrt.Daemon.Output
import Conrt.Daemon.Overlay
import Conrt.Daemon.Pool
import Conrt.Daemon.RequestAsks
import Conrt.Daemon.Retiring
import Conrt.Daemon.Room
import Conrt.Daemon.Stdin
import Conrt.Daemon.Streams
import Conrt.Daemon.Told
import Conrt.Poll.Drain
import Conrt.Poll.Joint
import Conrt.Poll.Readiness
import Conrt.Text.CString
import Conrt.Uring.Joint
