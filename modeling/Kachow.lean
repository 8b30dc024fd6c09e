import Kachow.Server.Startup
import Kachow.Sessions.Exceptions
import Kachow.Api.Crud
import Kachow.Api.Overwrite
import Kachow.Api.StoreStep
import Kachow.Api.Confinement
import Kachow.Api.Factory
import Kachow.Secure.Confinement
import Kachow.Config.RoundTrip
import Kachow.Config.Grammar
import Kachow.Sessions.Routing
import Kachow.Sessions.Isolation
import Kachow.Secure.Tokens
import Kachow.Sessions.Lifecycle
import Kachow.Config.Layout
import Kachow.Api.Keys
import Kachow.Api.Reads
import Kachow.Api.Frame
import Kachow.Secure.Interference
import Kachow.Secure.Renaming
import Kachow.Config.Lossless
import Kachow.Config.Flatten
import Kachow.Api.Listing
import Kachow.Api.Naming
import Kachow.Config.Stack
import Kachow.Secure.UserId
import Kachow.Server.Port
import Kachow.Server.Rejected
import Kachow.Server.Workers
import Kachow.Api.Reports
import Kachow.Api.Storage
import Kachow.Api.Allocation
import Kachow.Config.Input
import Kachow.Api.Posted
import Kachow.Api.Crash
import Kachow.Sessions.Connections
import Kachow.Secure.Restart
