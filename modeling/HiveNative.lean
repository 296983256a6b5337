import HiveNative.Lib.OrderedMap
import HiveNative.Lib.EState
import HiveNative.Lib.Machine
import HiveNative.Lib.Allocation
import HiveNative.Lib.Layering
import HiveNative.Lib.OpenAddressing
import HiveNative.Lib.Replay
import HiveNative.Lib.FlatJson
import HiveNative.Lib.MerkleDamgard
import HiveNative.Lib.Octets
import HiveNative.Lib.RootConstants
import HiveNative.Lib.PackedBits
import HiveNative.Lib.CellMemory
import HiveNative.Lib.CountedLoop
import HiveNative.Lib.Fips180
import HiveNative.Lib.Ripemd160
import HiveNative.Lib.Xxh64
import HiveNative.Lib.Selection
import HiveNative.Lib.JsonText
import HiveNative.Lib.JsonRecord
import HiveNative.Lib.DoubleEntry
import HiveNative.Util.Types
import HiveNative.Util.Crypto
import HiveNative.Util.HashBlocks
import HiveNative.Util.Sha256
import HiveNative.Util.Ripemd160
import HiveNative.Protocol.Operations
import HiveNative.Rc.Costs
import HiveNative.Contracts.Engine
import HiveNative.Contracts.Fuel
import HiveNative.Contracts.Commands
import HiveNative.Contracts.Results
import HiveNative.Plugins.HiveContracts
import HiveNative.Chain.Database
import HiveNative.Chain.Evaluators
import HiveNative.Chain.EvaluatorSpecs
import HiveNative.Chain.Failure
import HiveNative.Chain.Run
import HiveNative.Chain.Atomicity
import HiveNative.Chain.Activation
import HiveNative.Chain.Reframe
import HiveNative.Chain.Authority
import HiveNative.Chain.Conservation
import HiveNative.Chain.Supply
import HiveNative.Chain.Settlement
import HiveNative.Chain.AtomicSwap
import HiveNative.Chain.Soulbound
import HiveNative.Api.DatabaseApi
import HiveNative.Api.Pagination
import HiveNative.Chain.WellFormed
import HiveNative.Chain.Consent
import HiveNative.Sdk.Types
import HiveNative.Sdk.Ops
import HiveNative.Sdk.WireFormat
import HiveNative.Chain.Census
import HiveNative.Api.Listing
import HiveNative.Haf.Tables
import HiveNative.Haf.Queries
import HiveNative.Haf.Conformance
import HiveNative.Chain.EventLog
import HiveNative.Chain.LogDrain
import HiveNative.Chain.CallAccounting
import HiveNative.Chain.Independence
import HiveNative.Perf.FlatHashMap
import HiveNative.Perf.FlatHashMapRefines
import HiveNative.Perf.FlatHashMapLoad
import HiveNative.Perf.Xxhash64
import HiveNative.Perf.Xxhash64Reads
import HiveNative.Perf.AccountCache
import HiveNative.Chain.AccountIndex
import HiveNative.Chain.CacheCoherence
import HiveNative.Chain.NodeProfiles
import HiveNative.Chain.NodeRoles
import HiveNative.Perf.OpDependency
import HiveNative.Perf.ApplyScheduler
import HiveNative.Perf.ScheduledApply
import HiveNative.Chain.ContractStorage
import HiveNative.Chain.StorageLog
import HiveNative.Chain.AppendOnly
import HiveNative.Perf.ScheduleOrder
import HiveNative.Perf.LayerOrder
import HiveNative.Perf.SchedulePartition
import HiveNative.Perf.ScheduleDepth
import HiveNative.Perf.WorkerPool
import HiveNative.Perf.WorkerPoolDrain
import HiveNative.Perf.CompactBlock
import HiveNative.Perf.MempoolGrowth
import HiveNative.Perf.SelectiveUndo
import HiveNative.Perf.SharedUndo
import HiveNative.Chain.Charges
import HiveNative.Chain.BalanceArithmetic
import HiveNative.Chain.LockQuota
import HiveNative.Chain.Books
import HiveNative.Perf.BloomFilter
import HiveNative.Perf.KnownTxSet
import HiveNative.Perf.Arena
import HiveNative.Perf.ArenaUsage
import HiveNative.Perf.SimdMath
