import TypeFerry.Ejson.RoundTrip
import TypeFerry.Ejson.Transparent
import TypeFerry.Ejson.WireEquality
import TypeFerry.Live.Source
import TypeFerry.Live.TraceSafety
import TypeFerry.Live.Convergence
import TypeFerry.Live.Agreement
import TypeFerry.Auth.Revocation
import TypeFerry.Server.Isolation
import TypeFerry.Server.Disconnect
import TypeFerry.Server.ClientMap
import TypeFerry.Server.Authentication
import TypeFerry.Minimongo.Reentrancy
import TypeFerry.Client.Channel
import TypeFerry.Client.Lifecycle
import TypeFerry.Client.Recovery
import TypeFerry.Client.Truthful
import TypeFerry.Auth.TokenRefresh
import TypeFerry.Auth.Rotation
import TypeFerry.Auth.PortEquivalence
import TypeFerry.Client.Requests
import TypeFerry.Go.Rooms
import TypeFerry.Go.MethodCache
import TypeFerry.Go.EjsonRoundTrip
import TypeFerry.Ruby.EjsonRoundTrip
import TypeFerry.Rust.EjsonRoundTrip
import TypeFerry.Ejson.OneFormat
import TypeFerry.Python.Base64RoundTrip
import TypeFerry.Ejson.Flags
import TypeFerry.Live.SourceClose
import TypeFerry.Ejson.Sharing
import TypeFerry.Minimongo.Order
import TypeFerry.Minimongo.SortedWindow
import TypeFerry.Minimongo.Exclusion
import TypeFerry.Server.RoomIndex
import TypeFerry.Auth.RefreshScheduler
import TypeFerry.Client.RecoveryWait
import TypeFerry.Minimongo.Listeners
import TypeFerry.Client.SubscribeAnswers
import TypeFerry.Client.EventEmitter
import TypeFerry.Auth.Cookies
import TypeFerry.Minimongo.CallFrames
import TypeFerry.Server.RateLimit
import TypeFerry.Server.BodyLimit
import TypeFerry.Minimongo.FailFast
import TypeFerry.Minimongo.Places
import TypeFerry.Minimongo.Positional
import TypeFerry.Minimongo.Locality
import TypeFerry.Minimongo.SetInsertion
import TypeFerry.Minimongo.Routes
import TypeFerry.Minimongo.Cyclic
import TypeFerry.Server.SlidingLimiters
import TypeFerry.Server.Cluster
import TypeFerry.Server.MethodCaches
import TypeFerry.Server.Heartbeat
import TypeFerry.Auth.RubySessions
import TypeFerry.Lib.Entries
import TypeFerry.Auth.NativeHandoff
import TypeFerry.Client.Throttle
import TypeFerry.Server.MongoWatch
import TypeFerry.Client.RpcEndToEnd
import TypeFerry.Go.Handler
import TypeFerry.Go.Presence
import TypeFerry.Server.RegistryPorts
import TypeFerry.Ruby.Supervisor
import TypeFerry.Server.ValidatorIds
