import Cserv.Conf.RoundTrip
import Cserv.Coro.Filing
import Cserv.Coro.Refinement
import Cserv.Coro.Starting
import Cserv.Http.Body
import Cserv.Http.Chunking
import Cserv.Http.Dispatch
import Cserv.Http.Host
import Cserv.Http.Numbers
import Cserv.Http.RoundsServed
import Cserv.Http.Server
import Cserv.Http.TargetForms
import Cserv.Http.UriParts
import Cserv.Log.Cirbuf
import Cserv.Log.Pipeline
import Cserv.Log.Reentry
import Cserv.Log.Reuse
import Cserv.Process.Fleet
import Cserv.Process.Reaping
import Cserv.Process.Respawn
import Cserv.Process.Shutdown
import Cserv.Process.SlotAlloc
import Cserv.Process.Startup
import Cserv.Util.HashRun
import Cserv.Util.Shm
