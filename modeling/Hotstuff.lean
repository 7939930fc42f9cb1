import Hotstuff.Consensus.Proposals
import Hotstuff.Consensus.Measuring
import Hotstuff.Consensus.Delivery
import Hotstuff.Consensus.Repeats
import Hotstuff.Consensus.Abandoned
import Hotstuff.Consensus.Tampering
import Hotstuff.Consensus.Intersection
import Hotstuff.Consensus.Cancelling
import Hotstuff.Storage
import Hotstuff.Network.ReliableSender
import Hotstuff.Consensus.Skipped
import Hotstuff.Mempool.Orphans
import Hotstuff.Consensus.Backoff
import Hotstuff.Consensus.Reordering
import Hotstuff.Consensus.Helping
import Hotstuff.Consensus.Walking
import Hotstuff.Consensus.Assembling
import Hotstuff.Consensus.Wrapping
import Hotstuff.Consensus.Encoding
import Hotstuff.Consensus.Estimating
import Hotstuff.Mempool.Dissemination
import Hotstuff.Benchmark.FailureInjection
import Hotstuff.Benchmark.FailureExperiment
import Hotstuff.Consensus.Doubling
import Hotstuff.Keys
import Hotstuff.Exporting
import Hotstuff.Mempool.Sampling
import Hotstuff.Storage.Failing
import Hotstuff.Mempool.Retrying
import Hotstuff.Mempool.Suspending
import Hotstuff.Mempool.Collecting
import Hotstuff.Consensus.Retaining
import Hotstuff.Consensus.Replication
import Hotstuff.Consensus.Survival
import Hotstuff.Consensus.Validity
import Hotstuff.Consensus.Replaying
import Hotstuff.Network.Draining
import Hotstuff.Mempool.Pipeline
import Hotstuff.Mempool.Fetching
