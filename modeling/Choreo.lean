import Choreo.Main
import Choreo.Yaml.Printing
import Choreo.Proofs.Node.Bookkeeping
import Choreo.Proofs.Script.Forest
import Choreo.Proofs.Session
import Choreo.Proofs.Discipline
import Choreo.Proofs.Duration
import Choreo.Proofs.Timing
import Choreo.Proofs.FlatSequence
import Choreo.Proofs.Product
import Choreo.Proofs.Reactivation
import Choreo.Proofs.Timeline
import Choreo.Proofs.Stillness
import Choreo.Proofs.Restarts
import Choreo.Proofs.Writers
import Choreo.Proofs.Pruning
import Choreo.Proofs.Delivery
import Choreo.Proofs.Reporting
import Choreo.Proofs.Node.Reordering
import Choreo.Proofs.Unwinding
import Choreo.Proofs.Node.Relocation
import Choreo.Proofs.Reordering
import Choreo.Proofs.Data.Buffering
import Choreo.Proofs.Schema.Records
import Choreo.Proofs.Schema.Scripts
import Choreo.Proofs.Json.Reading
import Choreo.Proofs.Yaml.Reading
import Choreo.Proofs.RoundTrip
import Choreo.Proofs.Node.Calling
import Choreo.Proofs.Succession
import Choreo.Proofs.Repetition
import Choreo.Proofs.Magazine
import Choreo.Proofs.Progress
import Choreo.Proofs.Standstill
import Choreo.Proofs.Finiteness
import Choreo.Proofs.Pacing
import Choreo.Proofs.Standing
import Choreo.Proofs.Curtailment
import Choreo.Proofs.Data.Concurrence
import Choreo.Proofs.Data.KeyOrder
import Choreo.Proofs.Schema.KeyOrder
import Choreo.Proofs.Schema.Widening
import Choreo.Proofs.Json.Deferral
import Choreo.Proofs.Rephrasing
import Choreo.Proofs.Views
