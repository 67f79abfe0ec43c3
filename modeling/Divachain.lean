import Divachain.Lib.OrdMap
import Divachain.Lib.Store
import Divachain.Lib.Electorate
import Divachain.Chain.Accounting
import Divachain.Chain.Agreement
import Divachain.Chain.Reset
import Divachain.Chain.Authorisation
import Divachain.Chain.TableCrypto
import Divachain.Net.VoteOnce
import Divachain.Net.Agreement
import Divachain.Net.Proposal
import Divachain.Net.Conservation
import Divachain.Chain.Addresses
import Divachain.Chain.StateStore
import Divachain.Chain.Cache
import Divachain.Net.Startup
import Divachain.Chain.Persistence
import Divachain.Net.Bootstrap
import Divachain.Net.Quorum
import Divachain.Lib.Json
import Divachain.Net.Wire
import Divachain.Net.Network
import Divachain.Net.Malformed
import Divachain.Net.Broadcast
import Divachain.Lib.Newest
import Divachain.Net.Gossip
import Divachain.Lib.WriteLog
import Divachain.Lib.Window
import Divachain.Lib.Search
import Divachain.Lib.KeySort
import Divachain.Chain.Range
import Divachain.Chain.Query
import Divachain.Net.Api
import Divachain.Chain.Signed
import Divachain.Net.Retry
import Divachain.Lib.RoundRobin
import Divachain.Net.Validator
import Divachain.Net.Applied
import Divachain.Lib.Dynamic
import Divachain.Net.Format
import Divachain.Net.SyncAnswer
import Divachain.Chain.Search
import Divachain.Chain.Removal
import Divachain.Chain.Attainable
import Divachain.Chain.Tally
import Divachain.Net.Arrival
import Divachain.Net.Credits
import Divachain.Net.Emitted
import Divachain.Net.Pack
import Divachain.Net.Separation
import Divachain.Net.Join
import Divachain.Net.Shuffle
import Divachain.Net.JoinRetry
import Divachain.Lib.HashChain
import Divachain.Chain.Lineage
import Divachain.Net.Sourced
import Divachain.Net.Authorship
import Divachain.Net.Handled
import Divachain.Lib.Sampler
import Divachain.Net.Availability
import Divachain.Net.Admission
import Divachain.Net.CatchUp
import Divachain.Lib.Residues
import Divachain.Net.Rotation
import Divachain.Net.Round
import Divachain.Chain.Genesis
import Divachain.Net.Progress
import Divachain.Net.FirstBlock
import Divachain.Net.Cached
