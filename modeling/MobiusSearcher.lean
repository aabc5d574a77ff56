import MobiusSearcher.Execution.Confirm
import MobiusSearcher.Execution.Live
import MobiusSearcher.Router.Triggers
import MobiusSearcher.Router.Sight
import MobiusSearcher.Risk.Runs
import MobiusSearcher.Core.Model
import MobiusSearcher.Lib.Run
import MobiusSearcher.Lab.Crash
import MobiusSearcher.Telemetry.Slots
import MobiusSearcher.Telemetry.Bucket
import MobiusSearcher.Purse.Amount
import MobiusSearcher.Purse.Page
import MobiusSearcher.Router.Admission
import MobiusSearcher.Router.Acts
import MobiusSearcher.Storage.Transparent
import MobiusSearcher.Storage.Spared
import MobiusSearcher.Lab.Final
import MobiusSearcher.Lab.Rests
import MobiusSearcher.Amm.Tick
import MobiusSearcher.Amm.Pool
import MobiusSearcher.Amm.Side
import MobiusSearcher.Amm.Total
import MobiusSearcher.Execution.Rent
import MobiusSearcher.Execution.Delta
import MobiusSearcher.Core.Guards
import MobiusSearcher.Strategy.Exact
import MobiusSearcher.Lab.Warm
import MobiusSearcher.Lab.Paper
import MobiusSearcher.Lab.Levels
import MobiusSearcher.Lab.Budget
import MobiusSearcher.Lab.Gain
import MobiusSearcher.Lab.Dates
import MobiusSearcher.Lab.Books
import MobiusSearcher.Strategy.Routes
import MobiusSearcher.Research.Since
import MobiusSearcher.Research.Replay
import MobiusSearcher.Venues.Sign
import MobiusSearcher.Venues.Hex
import MobiusSearcher.Venues.Abi
import MobiusSearcher.Core.Layers
import MobiusSearcher.Core.ThresholdsFile
import MobiusSearcher.Core.Series
import MobiusSearcher.Execution.Floor
import MobiusSearcher.Market.Watched
import MobiusSearcher.Core.Migration
