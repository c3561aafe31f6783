import Dkg.Admission.Budgets
import Dkg.Authority.Serving
import Dkg.Changelog.Delta
import Dkg.Changelog.Eras
import Dkg.Epochs.Conservation
import Dkg.FinalizedVm.Accumulator
import Dkg.Framing.MessageFrame
import Dkg.Framing.Wires
import Dkg.KaBundle.Opaque
import Dkg.KaChunk.Verified
import Dkg.Locks.KeyedLock
import Dkg.Policy.Fixpoint
import Dkg.Publishing.Allocation
import Dkg.Sampling.Periods
import Dkg.Sampling.Preview
import Dkg.Sampling.ProofBinding
import Dkg.Sampling.Pruning
import Dkg.SenderKey.Receiver
import Dkg.Settlement.CountOnce
import Dkg.Sharding.Sorted
import Dkg.Skolem.ByEntity
import Dkg.Skolem.Content
import Dkg.Staking.Enumeration
import Dkg.Staking.QueryPool
import Dkg.Staking.QueueOrder
import Dkg.Staking.SlotCap
import Dkg.Subscriptions.Records
import Dkg.Sync.DurablePrefix
import Dkg.Sync.Verified
import Dkg.VmUpdate.LogCommitment
