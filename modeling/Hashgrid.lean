import Hashgrid.Lib.Bytes
import Hashgrid.Wire.Frame
import Hashgrid.Rlp.RoundTrip
import Hashgrid.Core.EventWire
import Hashgrid.Core.Majority
import Hashgrid.Core.Acyclic
import Hashgrid.Core.ArrivalOrder
import Hashgrid.Node.LocalWitness
import Hashgrid.Node.TwoNodes
import Hashgrid.Core.SelfWalk
import Hashgrid.Core.NoLostLink
import Hashgrid.Core.ColumnRep
import Hashgrid.Core.AddNodeCalls
import Hashgrid.Core.NewComerLock
import Hashgrid.Core.WitnessTables
import Hashgrid.Core.RoundPointers
import Hashgrid.Core.IndexRange
import Hashgrid.Core.TwoCopies
import Hashgrid.Core.ConsensusOnce
import Hashgrid.Core.ConsensusShow
import Hashgrid.Core.ConsensusCount
import Hashgrid.Node.LocalBroadcast
import Hashgrid.Node.Requests
import Hashgrid.P2p.TwoDials
import Hashgrid.Rlp.Split
import Hashgrid.Rlp.Items
import Hashgrid.Rlp.CleanValues
import Hashgrid.Rlp.EncReader
import Hashgrid.Rlp.StreamBounds
import Hashgrid.Rlp.TypeCacheComplete
import Hashgrid.Core.EventCodec
import Hashgrid.Core.SeeSound
import Hashgrid.Core.RandParent
import Hashgrid.Core.PendingTrans
import Hashgrid.Core.AnswerMark
import Hashgrid.Core.Redelivery
import Hashgrid.Rlp.RawValues
import Hashgrid.Rlp.SliceEnds
import Hashgrid.Crypto.Digest
import Hashgrid.Core.WitnessFame
import Hashgrid.Core.SeeMemory
import Hashgrid.Core.LostDicts
import Hashgrid.Rlp.CountValues
import Hashgrid.Core.HexAddress
import Hashgrid.Core.VisitTrace
import Hashgrid.Core.RoundQueue
import Hashgrid.Core.References
import Hashgrid.Core.LinkOnce
import Hashgrid.Node.Placed
import Hashgrid.Node.AppendOnly
import Hashgrid.Node.Provenance
import Hashgrid.Core.Composed
import Hashgrid.Node.Agreement
import Hashgrid.Core.EventSize
import Hashgrid.Node.RoundBounds
import Hashgrid.Node.Network
import Hashgrid.Node.PairNetwork
import Hashgrid.Node.CrossLinks
import Hashgrid.Node.Delivery
import Hashgrid.Lib.KeccakF
import Hashgrid.Crypto.Permutation
import Hashgrid.Node.Convergence
