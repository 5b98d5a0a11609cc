import Stutools.Machine
import Stutools.Memory
import Stutools.Vec
import Stutools.Request
import Stutools.Pattern
import Stutools.Float
import Stutools.Workload
import Stutools.Positions
import Stutools.Extents
import Stutools.Run
import Stutools.Jobs
import Stutools.Stream
import Stutools.StreamLists
import Stutools.StreamRuns
import Stutools.StreamCounts
import Stutools.StreamOneSlot
import Stutools.StreamOrder
import Stutools.StreamDevice
import Stutools.Batches
import Stutools.Ranges
import Stutools.Payloads
import Stutools.Bytes
import Stutools.Fabric
import Stutools.IscsiPdu
import Stutools.Sqe
import Stutools.Addressing
import Stutools.NvmePdu
import Stutools.Crc
import Stutools.IscsiWire
import Stutools.IscsiSession
import Stutools.IscsiTrackers
import Stutools.NvmeSession
import Stutools.Transfers
import Stutools.Lanes
import Stutools.Pool
import Stutools.Flags
import Stutools.PoolSteps
import Stutools.PoolPaths
import Stutools.PoolSlots
import Stutools.PoolProgress
import Stutools.NvmePaths
import Stutools.StreamRace
import Stutools.PoolRace
import Stutools.PoolOrder
import Stutools.BatchChecks
import Stutools.BatchDevice
import Stutools.Misplaced
import Stutools.Calls
import Stutools.Coverage
import Stutools.Guarded
import Stutools.PoolCounts
import Stutools.Ring
import Stutools.SpitBuffer
import Stutools.SpitEngine
import Stutools.SpitSlots
import Stutools.Shares
import Stutools.SpitPayload
import Stutools.SpitReadBack
import Stutools.StreamRoom
import Stutools.Backends
import Stutools.Budget
import Stutools.Chunks
import Stutools.Cycle
import Stutools.DataOut
import Stutools.Fastest
import Stutools.H2cData
import Stutools.Libaio
import Stutools.PoolAvoids
import Stutools.SpitPairs
import Stutools.Buckets
import Stutools.CctvRuns
import Stutools.ChapBinary
import Stutools.ChapDigest
import Stutools.Crc32c
import Stutools.LogPage
import Stutools.Login
import Stutools.PositionsFile
import Stutools.Reorders
import Stutools.ScratchRegion
import Stutools.Size
import Stutools.WorkloadGrammar
import Stutools.Calendar
import Stutools.CctvRetention
import Stutools.FillerWorkers
import Stutools.Journal
import Stutools.SpitCollapse
import Stutools.SpitMerge
import Stutools.SpitBlocks
import Stutools.SpitUnique
import Stutools.SpitPasses
import Stutools.SpitFile
import Stutools.SpitReload
import Stutools.SpitSaved
import Stutools.SpitCreate
import Stutools.SpitRange
import Stutools.SpitRounds
import Stutools.SpitRoomy
import Stutools.Exchanges
import Stutools.SpitShuffles
import Stutools.ListLayouts
import Stutools.Cstring
import Stutools.ExchangeSort
import Stutools.SpitKeyvalue
import Stutools.SpitSuperblock
import Stutools.CctvCameras
import Stutools.CctvTurns
import Stutools.CctvAccount
import Stutools.CctvRecordings
import Stutools.CctvHandover
import Stutools.CctvShutdown
import Stutools.CctvProgress
import Stutools.Barriers
import Stutools.StartGate
import Stutools.AtsRace
