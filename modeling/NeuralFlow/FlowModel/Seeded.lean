import NeuralFlow.FlowModel
import NeuralFlow.Sampling.Normal

/-!
Models in single precision whose layers are drawn from normal samples. The seed in the settings fixes
all of them.
-/

namespace NeuralFlow.FlowModel

def ofSettings (c : Settings Float32) : Outcome Float32 (FlowModel Float32) :=
  draw Normal.single c (Source.ofSeed c.seed)

end NeuralFlow.FlowModel
