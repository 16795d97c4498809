import Cadence.Main
import Cadence.Proofs.Approach
import Cadence.Proofs.Audience
import Cadence.Proofs.Binding
import Cadence.Proofs.Clearing
import Cadence.Proofs.Deadline
import Cadence.Proofs.Failures
import Cadence.Proofs.GridLine
import Cadence.Proofs.Joining
import Cadence.Proofs.Json.RoundTrip
import Cadence.Proofs.Meter
import Cadence.Proofs.Metronome
import Cadence.Proofs.NextMultiple
import Cadence.Proofs.Offset
import Cadence.Proofs.Omission
import Cadence.Proofs.OneShot
import Cadence.Proofs.Passes
import Cadence.Proofs.Point.Missing
import Cadence.Proofs.Point.Propagation
import Cadence.Proofs.Punctuality
import Cadence.Proofs.Queue.Due
import Cadence.Proofs.Queue.Ties
import Cadence.Proofs.Reading
import Cadence.Proofs.Reanchoring
import Cadence.Proofs.Rebinding
import Cadence.Proofs.Recovery
import Cadence.Proofs.Recurrence
import Cadence.Proofs.Replay
import Cadence.Proofs.Reporting
import Cadence.Proofs.Resync
import Cadence.Proofs.Rotation
import Cadence.Proofs.Run.Script
import Cadence.Proofs.Safekeeping
import Cadence.Proofs.ShortWay
import Cadence.Proofs.StartOrder
import Cadence.Proofs.Tally
import Cadence.Proofs.Unfollowed
import Cadence.Proofs.Waking
import Cadence.Proofs.WallTime
import Cadence.Script.Run
