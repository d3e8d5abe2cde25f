import Wye.Manager.Atomicity
import Wye.Manager.Serial
import Wye.Manager.Deletion
import Wye.Manager.PidSafety
import Wye.Manager.Reporting
import Wye.Manager.Answers
import Wye.Manager.Children
import Wye.Process.Startup
import Wye.Process.Lambda
import Wye.Process.Faithful
import Wye.Replies
import Wye.Client.Wiring
import Wye.Http.Verdict
import Wye.Posix.Workers
import Wye.Posix.Stream
