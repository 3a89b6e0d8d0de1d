import Dijets.Lib.Run
import Dijets.Lib.EStateSpec
import Dijets.Lib.Quorum
import Dijets.Lib.CertifiedChain
import Dijets.Lib.SortedMap
import Dijets.Lib.MoveArith
import Dijets.Lib.TreeWalk
import Dijets.Lib.ParentPass
import Dijets.Consensus.Types
import Dijets.Consensus.Verify
import Dijets.Consensus.VerifySpec
import Dijets.Consensus.PersistentStorage
import Dijets.Consensus.InMemoryStorage
import Dijets.Consensus.SafetyRules
import Dijets.Consensus.SafetyRulesTwoChain
import Dijets.Consensus.SafetyRulesInput
import Dijets.Consensus.StorageSpec
import Dijets.Consensus.RequestSpec
import Dijets.Consensus.Safety
import Dijets.Consensus.Honest
import Dijets.Consensus.Locking
import Dijets.Consensus.LockingTwoChain
import Dijets.Consensus.Protocol
import Dijets.Consensus.CommitSafety
import Dijets.Consensus.CommitSafetyTwoChain
import Dijets.Consensus.VotingRules
import Dijets.Consensus.TimeoutCertificate
import Dijets.Consensus.PendingVotes
import Dijets.Lib.Outcome
import Dijets.Lib.ByteBits
import Dijets.Crypto.Bitmap
import Dijets.Crypto.MultiEd25519
import Dijets.Crypto.MultiEd25519Spec
import Dijets.Framework.SlidingNonce
import Dijets.Consensus.BlockTree
import Dijets.Consensus.Recovery
import Dijets.Mempool.Index
import Dijets.Mempool.TransactionStore
import Dijets.Mempool.StoreInvariant
import Dijets.Framework.Dijets
import Dijets.Framework.DijetsSupply
import Dijets.Lib.Loop
import Dijets.Consensus.BlockTreePath
import Dijets.Consensus.BlockTreeCerts
import Dijets.Consensus.RoundState
import Dijets.Move.FileFormat
import Dijets.Lib.Check
import Dijets.Move.Errors
import Dijets.Move.BinaryViews
import Dijets.Move.CheckBounds
import Dijets.Move.CheckBoundsSpec
import Dijets.Lib.Toposort
import Dijets.Lib.Components
import Dijets.Move.StructDefs
import Dijets.Move.ValueDepth
import Dijets.Move.InstantiationLoops
import Dijets.Lib.BinarySearch
import Dijets.Consensus.LeaderReputation
import Dijets.Move.Acquires
import Dijets.Move.Dependencies
import Dijets.Move.CallStack
import Dijets.Move.Uleb128
import Dijets.Lib.HashMap
import Dijets.Vm.MVHashMap
import Dijets.Vm.MVHashMapReads
import Dijets.Vm.BlockExecutor
import Dijets.Move.Serializer
import Dijets.Move.Deserializer
import Dijets.Move.SignaturePool
import Dijets.Lib.Counter
import Dijets.Move.ControlFlowGraph
import Dijets.Move.StackUsage
import Dijets.Net.BitVec
import Dijets.Net.Handshake
import Dijets.Net.SecureNet
import Dijets.Mempool.Capacity
import Dijets.Mempool.ParkingLot
import Dijets.Mempool.TtlCache
import Dijets.Net.NoiseStream
import Dijets.Lib.OptionLoop
import Dijets.Lib.Cover
import Dijets.Move.BorrowGraph
import Dijets.Move.BorrowGraphInvariant
import Dijets.Move.BorrowGraphFactor
import Dijets.Move.BorrowGraphRelease
import Dijets.Move.BorrowGraphRemap
import Dijets.Move.BorrowGraphJoin
import Dijets.Move.BorrowGraphLaws
import Dijets.Move.BorrowGraphRuns
import Dijets.Lib.RoundRobin
import Dijets.Channel.MessageQueues
import Dijets.Channel.DijetsChannel
