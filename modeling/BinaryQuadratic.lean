import BinaryQuadratic.Annealing.Annealer
import BinaryQuadratic.Coefficient.Binary64
import BinaryQuadratic.Problem.AndGate
import BinaryQuadratic.Problem.MaxCut
import BinaryQuadratic.Problem.Tour.Model
import BinaryQuadratic.Proofs.OrderedMap
import BinaryQuadratic.Proofs.PackedState
import BinaryQuadratic.Proofs.Model.WellFormed
import BinaryQuadratic.Proofs.Coefficient.Binary64
import BinaryQuadratic.Proofs.Coefficient.Comparison
import BinaryQuadratic.Proofs.Coefficient.Exact
import BinaryQuadratic.Proofs.Model.Polynomial
import BinaryQuadratic.Proofs.Annealing.Field
import BinaryQuadratic.Proofs.Annealing.Metropolis
import BinaryQuadratic.Proofs.Annealing.Record
import BinaryQuadratic.SampleSet.Text
import BinaryQuadratic.Search.GroundStates
import BinaryQuadratic.Search.MaxCut
import BinaryQuadratic.Search.Tour
import BinaryQuadratic.Proofs.Model.Conversion
import BinaryQuadratic.Proofs.SampleSet
import BinaryQuadratic.Proofs.Annealing.Conversion
import BinaryQuadratic.Proofs.Model.Evaluation
import BinaryQuadratic.Proofs.Problem.Penalty
import BinaryQuadratic.Proofs.Problem.Stitching
import BinaryQuadratic.Proofs.Problem.Tour.Decoding
import BinaryQuadratic.Proofs.Problem.Tour.Energy
import BinaryQuadratic.Proofs.Problem.Tour.Length
import BinaryQuadratic.Proofs.Problem.Tour.GroundStates
import BinaryQuadratic.Model.History
import BinaryQuadratic.Proofs.Sums
import BinaryQuadratic.Proofs.Model.Interactions
import BinaryQuadratic.Proofs.Model.Labels
import BinaryQuadratic.Proofs.Model.Representation
import BinaryQuadratic.Proofs.Model.RoundTrip
import BinaryQuadratic.Proofs.Model.History
import BinaryQuadratic.Proofs.Coefficient.TotalOrder
import BinaryQuadratic.Proofs.Annealing.Progress
import BinaryQuadratic.Proofs.SampleSet.Merging
import BinaryQuadratic.Proofs.Annealing.Samples
import BinaryQuadratic.Proofs.SampleSet.Aggregation
import BinaryQuadratic.Proofs.Annealing.Rescaling
import BinaryQuadratic.Proofs.Problem.Gates
import BinaryQuadratic.Proofs.Problem.StitchingErrors
import BinaryQuadratic.Proofs.Problem.Tour.Decomposition
import BinaryQuadratic.Proofs.SampleSet.Growth
import BinaryQuadratic.Proofs.Annealing.MoreReads
import BinaryQuadratic.Proofs.Annealing.Outcomes
import BinaryQuadratic.Proofs.Model.Assembly
import BinaryQuadratic.Proofs.Model.Export
import BinaryQuadratic.Proofs.Search.GroundStates
import BinaryQuadratic.Proofs.Problem.MaxCut
import BinaryQuadratic.Proofs.SampleSet.Ascending
import BinaryQuadratic.Proofs.Search.Sampling
import BinaryQuadratic.Proofs.PackedState.Access
import BinaryQuadratic.Proofs.PackedState.Allocation
import BinaryQuadratic.Proofs.Search.Exchanges
import BinaryQuadratic.Proofs.Search.Orders
import BinaryQuadratic.Proofs.Search.Tour
import BinaryQuadratic.Proofs.Coefficient.Binary64.Signs
import BinaryQuadratic.Proofs.Coefficient.Binary64.Integers
import BinaryQuadratic.Proofs.Annealing.Acceptance
import BinaryQuadratic.Proofs.Model.Energy
import BinaryQuadratic.Proofs.Search.Rescaling
import BinaryQuadratic.Proofs.Search.PenalizedTour
import BinaryQuadratic.Proofs.Problem.Tour.Best
import BinaryQuadratic.Proofs.Annealing.RangeEnds
import BinaryQuadratic.Proofs.Annealing.CutOff
import BinaryQuadratic.Proofs.Problem.Predicate
import BinaryQuadratic.Proofs.Annealing.NoVariables
import BinaryQuadratic.Proofs.Annealing.AutomaticSchedule
import BinaryQuadratic.Proofs.Annealing.Schedule
import BinaryQuadratic.Proofs.Coefficient.Binary64.Values
import BinaryQuadratic.Proofs.Coefficient.Binary64.Overflow
