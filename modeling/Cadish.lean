import Cadish.Cache.Crash
import Cadish.Server.Vouch
import Cadish.Server.Footprint
import Cadish.Cache.Reload
import Cadish.Server.Refresh
import Cadish.Config.Transplant
import Cadish.Server.Range
import Cadish.Server.Rewrite
import Cadish.RateLimit
import Cadish.Cadishfile.Addresses
import Cadish.Controller.Merging
import Cadish.Controller.Fragments
import Cadish.Pipeline.Recipes
import Cadish.Edge.Portable
import Cadish.Edge.Parity
import Cadish.Lb.Health
import Cadish.Origin.Bodies
import Cadish.Cache.Inflight
import Cadish.Lb.Pick
import Cadish.Lb.Ejection
import Cadish.Lb.Accounting
import Cadish.Server.Hops
import Cadish.Cache.Dedup
import Cadish.Server.Classify
import Cadish.Edge.Transform
import Cadish.Edge.Codings
import Cadish.Controller.Gateway
import Cadish.Server.Hosts
