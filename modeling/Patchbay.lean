import Patchbay.Bench
import Patchbay.Engine.Edit
import Patchbay.Engine.Restore
import Patchbay.Engine.View
import Patchbay.Evaluation
import Patchbay.History
import Patchbay.Main
import Patchbay.Proofs.Invariants
import Patchbay.Proofs.Execution
import Patchbay.Session
import Patchbay.Proofs.Moves
import Patchbay.Proofs.Succession
import Patchbay.Proofs.Discards
import Patchbay.Proofs.EdgeSet
import Patchbay.Proofs.SavedFormat
import Patchbay.Proofs.Draining
import Patchbay.Proofs.Rounds
import Patchbay.Proofs.Peeling
import Patchbay.Engine.InPlace
import Patchbay.Proofs.Atomicity
import Patchbay.Proofs.Replay
import Patchbay.Proofs.Announcements
import Patchbay.Mirror
import Patchbay.Proofs.Reports
import Patchbay.Proofs.Requests
import Patchbay.Proofs.Saving
import Patchbay.Proofs.Deadlock
import Patchbay.Proofs.Endurance
import Patchbay.Proofs.Waking
import Patchbay.Proofs.Idle
import Patchbay.Proofs.Tenure
import Patchbay.Proofs.Cascade
import Patchbay.Proofs.Solo
import Patchbay.Proofs.Propagation
import Patchbay.Proofs.Agreement
import Patchbay.Proofs.Independence
import Patchbay.Proofs.Admission
import Patchbay.Proofs.Circles
import Patchbay.Proofs.Timeline
import Patchbay.Proofs.Continuity
import Patchbay.Proofs.Writable
import Patchbay.Proofs.Working
import Patchbay.Proofs.Service
import Patchbay.Proofs.Running
import Patchbay.Proofs.Statuses
import Patchbay.Proofs.Blocking
import Patchbay.Proofs.Impact
import Patchbay.Proofs.Extent
import Patchbay.Proofs.Calls
import Patchbay.Proofs.Hooks
import Patchbay.Proofs.Losses
import Patchbay.Proofs.VideoMode
import Patchbay.Proofs.Preview
import Patchbay.Proofs.Origins
import Patchbay.Proofs.Decoding
import Patchbay.Proofs.Normalization
import Patchbay.Proofs.Polling
