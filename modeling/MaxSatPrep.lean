import MaxSatPrep.Assignment
import MaxSatPrep.Backend
import MaxSatPrep.Clause
import MaxSatPrep.Codec
import MaxSatPrep.Config
import MaxSatPrep.Datum
import MaxSatPrep.Datum.Convert
import MaxSatPrep.Datum.Describe
import MaxSatPrep.Datum.Reader
import MaxSatPrep.Datum.Writer
import MaxSatPrep.Encode.AtMostOne
import MaxSatPrep.Encode.Counter
import MaxSatPrep.Encode.Linear
import MaxSatPrep.Encode.Totalizer
import MaxSatPrep.Encode.VarCounter
import MaxSatPrep.Engine.Blocked
import MaxSatPrep.Engine.Edit
import MaxSatPrep.Engine.Propagate
import MaxSatPrep.Engine.Reconstruct
import MaxSatPrep.Engine.Report
import MaxSatPrep.Engine.Schedule
import MaxSatPrep.Engine.State
import MaxSatPrep.Engine.Stream
import MaxSatPrep.Engine.Subsume
import MaxSatPrep.Error
import MaxSatPrep.Instance.Encoding
import MaxSatPrep.Instance.Model
import MaxSatPrep.Instance.Readback
import MaxSatPrep.Instance.Schema
import MaxSatPrep.Literal
import MaxSatPrep.Literal.Polar
import MaxSatPrep.Sorting
import MaxSatPrep.Logging
import MaxSatPrep.Number.Binary64
import MaxSatPrep.Number.DecimalText
import MaxSatPrep.Number.Numeral
import MaxSatPrep.Number.Shortest
import MaxSatPrep.Options
import MaxSatPrep.Schema
import MaxSatPrep.Session.Basic
import MaxSatPrep.Session.Build
import MaxSatPrep.Session.Calls
import MaxSatPrep.Session.Ops
import MaxSatPrep.Technique.Plan
import MaxSatPrep.Text.Blank
import MaxSatPrep.Text.Lines
import MaxSatPrep.Text.Quoted
import MaxSatPrep.Weights.SoftMap
import MaxSatPrep.Weights.Table
import MaxSatPrep.Proofs.IntValues
import MaxSatPrep.Proofs.EngineRun
import MaxSatPrep.Proofs.Propagation
import MaxSatPrep.Proofs.PropagationRun
import MaxSatPrep.Proofs.Subsumption
import MaxSatPrep.Proofs.Replay
import MaxSatPrep.Proofs.Blocking
import MaxSatPrep.Proofs.Schedule
import MaxSatPrep.Proofs.Soundness
import MaxSatPrep.Proofs.Build
import MaxSatPrep.Proofs.Readback
import MaxSatPrep.Proofs.Reconstruction
import MaxSatPrep.Proofs.SoundReconstruction
import MaxSatPrep.Proofs.SoftWeights
import MaxSatPrep.Proofs.SoftReadback
import MaxSatPrep.Proofs.Cost
import MaxSatPrep.Proofs.Edits
import MaxSatPrep.Proofs.Shape
import MaxSatPrep.Proofs.SessionCalls
import MaxSatPrep.Proofs.Reachable
import MaxSatPrep.Proofs.TopWeight
import MaxSatPrep.Proofs.Classification
import MaxSatPrep.Proofs.CallContract
import MaxSatPrep.Proofs.RoundTrip
import MaxSatPrep.Proofs.ObjectiveCost
import MaxSatPrep.Proofs.Reweighting
import MaxSatPrep.Proofs.Freezing
import MaxSatPrep.Proofs.Lifecycle
import MaxSatPrep.Proofs.Adapters
import MaxSatPrep.Proofs.Termination
import MaxSatPrep.Proofs.Flags
import MaxSatPrep.Proofs.Skipping
import MaxSatPrep.Proofs.AtRest
import MaxSatPrep.Proofs.Fixpoint
import MaxSatPrep.Proofs.SubsumedRows
import MaxSatPrep.Proofs.BlockedEvents
import MaxSatPrep.Proofs.PropagationFixpoint
import MaxSatPrep.Proofs.ReconstructionFrame
import MaxSatPrep.Proofs.PlanGrammar
import MaxSatPrep.Proofs.SoftClauses
import MaxSatPrep.Proofs.RowClassification
import MaxSatPrep.Proofs.BackwardReplay
import MaxSatPrep.Proofs.AddedClauses
