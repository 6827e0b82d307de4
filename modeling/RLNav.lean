import RLNav.Lib.Checked
import RLNav.Lib.Machine
import RLNav.Lib.IeeeReal
import RLNav.Lib.Blocks
import RLNav.Lib.ArgMin
import RLNav.Lib.Polyline
import RLNav.Nearest
import RLNav.Exact.Features
import RLNav.Exact.Plane
import RLNav.Exact.CarrotOrder
import RLNav.Exact.Motion
import RLNav.Exact.Frames
import RLNav.Exact.Containment
import RLNav.Exact.Nearness
import RLNav.Exact.Startup
import RLNav.Exact.Fading
import RLNav.Exact.Lookahead
import RLNav.Following
import RLNav.Exact.Rays
import RLNav.Exact.Sweeps
import RLNav.Exact.Envelope
import RLNav.Exact.Heading
import RLNav.Exact.Polar
import RLNav.Lib.Lock
import RLNav.Model.Threads
import RLNav.Interleaving
import RLNav.Attempts
import RLNav.Coalesce
import RLNav.Tracker
import RLNav.Lib.Console
import RLNav.Model.Scripts
import RLNav.Scripts
import RLNav.SizeBound
import RLNav.Exact.Noise
import RLNav.Exact.Drift
import RLNav.Exact.Turning
import RLNav.Route
import RLNav.Replanning
import RLNav.Exact.Histories
import RLNav.Exact.Indices
