import MmixCompiler.Main
import MmixCompiler.Proofs.Allocation
import MmixCompiler.Proofs.Frame.Arrangement
import MmixCompiler.Proofs.Ir.Linearization
import MmixCompiler.Proofs.Ir.Meaning
import MmixCompiler.Proofs.Ir.Recording
import MmixCompiler.Proofs.Labels
import MmixCompiler.Proofs.Mmix.Loading
import MmixCompiler.Proofs.Mmix.Restoration
import MmixCompiler.Proofs.Register.FullSpill
import MmixCompiler.Proofs.Register.LivePaths
import MmixCompiler.Proofs.Scope.Reordering
import MmixCompiler.Proofs.Token.Reconstruction
import MmixCompiler.Proofs.Tree.FirstError
import MmixCompiler.Proofs.Tree.Traversal
import MmixCompiler.Proofs.Types.Constants
import MmixCompiler.Proofs.Types.Derivability
import MmixCompiler.Proofs.Types.Display
import MmixCompiler.Proofs.Types.Recursion
import MmixCompiler.Proofs.Types.Sizes
