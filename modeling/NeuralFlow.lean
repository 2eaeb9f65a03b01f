import NeuralFlow.EdgeMatrix.Dense
import NeuralFlow.EdgeMatrix.Sparse
import NeuralFlow.FlowModel.Seeded
import NeuralFlow.Hops.Memo
import NeuralFlow.Json.QuickFormat
import NeuralFlow.Network.Text
import NeuralFlow.Settings.Text
import NeuralFlow.Proofs.Backing
import NeuralFlow.Proofs.Backing.Dense
import NeuralFlow.Proofs.Backing.Sparse
import NeuralFlow.Proofs.Conservation
import NeuralFlow.Proofs.Cost
import NeuralFlow.Proofs.DualAscent
import NeuralFlow.Proofs.WeakDuality
import NeuralFlow.Proofs.Redistribution
import NeuralFlow.Proofs.FixedPoint
import NeuralFlow.Proofs.Layers
import NeuralFlow.Proofs.HopAttention
import NeuralFlow.Proofs.Draw
import NeuralFlow.Proofs.FlowModel
import NeuralFlow.Proofs.Validation
import NeuralFlow.Proofs.Alike
import NeuralFlow.Proofs.Agreement
import NeuralFlow.Proofs.BackingIndependence
import NeuralFlow.Proofs.Walks
import NeuralFlow.Proofs.HopDegrees
import NeuralFlow.Proofs.FlowWeights
import NeuralFlow.Proofs.PrimalHalf
import NeuralFlow.Proofs.SettingsText
import NeuralFlow.Proofs.SameView
import NeuralFlow.Proofs.WellFormed
import NeuralFlow.Proofs.HopMemo
import NeuralFlow.Proofs.Relabelling.Model
import NeuralFlow.Proofs.ReceptiveField
import NeuralFlow.Proofs.DualityGap
import NeuralFlow.Proofs.NetworkText
import NeuralFlow.Proofs.Canonical
import NeuralFlow.Proofs.PatternOnly
import NeuralFlow.Proofs.BoundedState
import NeuralFlow.Proofs.CheapestFlow
import NeuralFlow.Proofs.ReciprocalFlow
import NeuralFlow.Proofs.NearestPoint
import NeuralFlow.Proofs.ConcaveBound
import NeuralFlow.Proofs.Certificate
import NeuralFlow.Proofs.EntryList
import NeuralFlow.Proofs.Acyclic
import NeuralFlow.Proofs.Ring
import NeuralFlow.Proofs.RisingFlow
import NeuralFlow.Proofs.LinkChecks
import NeuralFlow.Proofs.MarginalCost
import NeuralFlow.Proofs.Congestion
import NeuralFlow.Proofs.ShiftedPotentials
import NeuralFlow.Proofs.SamePattern
import NeuralFlow.Proofs.RowSymmetry
import NeuralFlow.Proofs.Binary.Nearest
import NeuralFlow.Proofs.Single
import NeuralFlow.Proofs.MaskedImbalance
import NeuralFlow.Proofs.SoundRows
import NeuralFlow.Proofs.SizesInWords
import NeuralFlow.Proofs.RoundTrip
import NeuralFlow.Proofs.RoundedCost
import NeuralFlow.Proofs.RoundedCancellation
