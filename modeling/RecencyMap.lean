import RecencyMap.Arena
import RecencyMap.KeyOrder
import RecencyMap.KeyIndex
import RecencyMap.KeyRange
import RecencyMap.Lru
import RecencyMap.Walk
import RecencyMap.Cursor
import RecencyMap.RangeQuery
import RecencyMap.Loading
import RecencyMap.Flight
import RecencyMap.Hashing
import RecencyMap.Printable
import RecencyMap.Quoted
import RecencyMap.Registry
import RecencyMap.Session.Events
import RecencyMap.Session.Map
import RecencyMap.Session.Arena
import RecencyMap.Session.Index
import RecencyMap.Bench.Numerals
import RecencyMap.Bench.Flags
import RecencyMap.Bench
import RecencyMap.Main
import RecencyMap.Proofs.Neighbours
import RecencyMap.Proofs.Arena.Walks
import RecencyMap.Proofs.Arena.Reachable
import RecencyMap.Proofs.Arena.Recency
import RecencyMap.Proofs.Arena.Refinement
import RecencyMap.Proofs.Index.Laws
import RecencyMap.Proofs.Map.Describes
import RecencyMap.Proofs.Arena.Entries
import RecencyMap.Proofs.Map.Consistent
import RecencyMap.Proofs.Map.Naive
import RecencyMap.Proofs.Map.Calls
import RecencyMap.Proofs.Map.Cursors
import RecencyMap.Proofs.Map.Changes
import RecencyMap.Proofs.Session.Exec
import RecencyMap.Proofs.Session.Rules
import RecencyMap.Proofs.Session.Steps
import RecencyMap.Proofs.Session.Invariant
import RecencyMap.Proofs.Session.Frame
import RecencyMap.Proofs.Session.Effects
import RecencyMap.Proofs.Session.Runs
import RecencyMap.Proofs.Session.Cursors
import RecencyMap.Proofs.Session.Generations
import RecencyMap.Proofs.Session.Hooks
import RecencyMap.Proofs.Session.Validity
import RecencyMap.Proofs.Loading.Coalescing
import RecencyMap.Proofs.Map.Traversal
import RecencyMap.Proofs.Session.Traversal
import RecencyMap.Proofs.Session.Positions
import RecencyMap.Proofs.Map.Ranges
import RecencyMap.Proofs.Session.Ranges
import RecencyMap.Proofs.Flights.Interleaved
import RecencyMap.Proofs.Flights.Sharing
import RecencyMap.Proofs.Flights.Sequential
import RecencyMap.Proofs.Map.Inclusion
import RecencyMap.Proofs.Map.Pruning
import RecencyMap.Proofs.Loading.Outcomes
import RecencyMap.Proofs.Hashing.WordPath
