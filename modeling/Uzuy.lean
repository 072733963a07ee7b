import Uzuy.Shader.IR.Value
import Uzuy.Shader.IR.Program
import Uzuy.Shader.IR.Semantics
import Uzuy.Shader.IR.Resolve
import Uzuy.Shader.IR.Rewrite
import Uzuy.Shader.IR.WellFormed
import Uzuy.Shader.IR.Acyclic
import Uzuy.Shader.Optimization.ConstantPropagation
import Uzuy.Shader.Optimization.Outcomes
import Uzuy.Shader.Optimization.BitField
import Uzuy.Shader.Optimization.Xmad
import Uzuy.Shader.Optimization.Commutative
import Uzuy.Shader.Optimization.Composite
import Uzuy.Shader.Optimization.Invariant
import Uzuy.Shader.Optimization.Termination
import Uzuy.Shader.Optimization.Locality
import Uzuy.Shader.Optimization.Placement
import Uzuy.Shader.Optimization.Soundness
import Uzuy.Shader.Optimization.Preservation
import Uzuy.Shader.Optimization.FloatingPoint
import Uzuy.VideoCore.HostShaders.QuadIndexed
import Uzuy.Service.AM.Applets.Cabinet
