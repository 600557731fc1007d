import Microchain.Subchain.BlockLogInv
import Microchain.Chainbase.Refinement
import Microchain.Starter.Contract
import Microchain.Starter.Cursors
import Microchain.Starter.Query
import Microchain.Lib.Run
import Microchain.Starter.QueryRoot
import Microchain.Box.DfuseHistory
import Microchain.Starter.ShipMessage
import Microchain.Starter.Unwinding
import Microchain.Eosio.Codec
import Microchain.Starter.Events
import Microchain.Feed.Order
import Microchain.Feed.HashChain
import Microchain.Feed.BlockBytes
import Microchain.Graphql.Answer
import Microchain.Graphql.Evaluation
import Microchain.Starter.Validity
import Microchain.Graphql.Relay
import Microchain.Graphql.Skipping
import Microchain.Box.PushJson
import Microchain.Feed.Irreversible
import Microchain.Eosiolib.SimpleMalloc
import Microchain.Graphql.Tokens
import Microchain.DebugEosVm.DebugLineSafety
import Microchain.DebugEosVm.SubprogramLookup
import Microchain.DebugEosVm.AbbrevLookup
import Microchain.DebugEosVm.DebugInfoSafety
import Microchain.DebugEosVm.LineSequences
import Microchain.Subchain.LinearSearch
import Microchain.DebugEosVm.LineProgramRows
import Microchain.Chainbase.Attempts
import Microchain.Sync.Convergence
import Microchain.Box.DfuseRecovery
import Microchain.DebugEosVm.Registration
import Microchain.DebugEosVm.Symfile
import Microchain.Box.ShipFollowing
import Microchain.Box.ShipCatchUp
import Microchain.Starter.QuerySchema
import Microchain.Sync.Queries
