import ObjectTransfer.Commit.Assurance
import ObjectTransfer.Fec.Delivery
import ObjectTransfer.Object.Snapshots
import ObjectTransfer.Resume.Bookkeeping
import ObjectTransfer.Log.Proofs
import ObjectTransfer.Log.Witness
import ObjectTransfer.Transport.Cuts
import ObjectTransfer.Receive.Placed
import ObjectTransfer.Sessions.Agreement
import ObjectTransfer.Sessions.Closed
import ObjectTransfer.Coded.Reopen
import ObjectTransfer.Fec.SenderRuns
import ObjectTransfer.Journal.Combine
import ObjectTransfer.Journal.Runs
import ObjectTransfer.ProofStore.Rebuilds
import ObjectTransfer.Ranges.Retained
import ObjectTransfer.Ranges.Served
import ObjectTransfer.Transport.Permits
import ObjectTransfer.Codec.DataRecord
