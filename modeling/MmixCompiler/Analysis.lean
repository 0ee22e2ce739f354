import MmixCompiler.Error
import MmixCompiler.Types.Address
import MmixCompiler.Types.Checking

/-! What is known about the nodes of a program before code is made from it. -/

namespace MmixCompiler

structure Analysis where
  bindings : Bindings
  typing : Typing
  places : Std.TreeSet NodeId

/-- Binds the names of a program, types its expressions and finds those that denote places. -/
def Program.analyze (p : Program) : Except SemanticError Analysis := do
  let bindings ← p.bind
  let typing ← p.typing bindings
  let places ← p.places bindings
  return ⟨bindings, typing, places⟩

/-- An entry of a table, or what its absence means. -/
def orFault {α : Type} (entry : Option α) (fault : InternalFault) : Except CompileError α :=
  match entry with
  | some a => .ok a
  | none => .error (.internal fault)

namespace Analysis

variable (a : Analysis)

def registry : Registry := a.typing.registry

def binding (mark : Mark) : Except CompileError Decl :=
  orFault a.bindings[mark.id]? (.unboundName mark.position)

def declType (d : Decl) : Except CompileError TypeId :=
  orFault a.typing.declTypes[d.id]? (.untypedDecl d.name)

def exprType (mark : Mark) : Except CompileError TypeId :=
  orFault a.typing.exprTypes[mark.id]? (.untypedExpr mark.position)

def typeExprType (mark : Mark) : Except CompileError TypeId :=
  orFault a.typing.typeTypes[mark.id]? (.unresolvedType mark.position)

def fieldIndex (mark : Mark) : Except CompileError Nat :=
  orFault a.typing.fieldIndices[mark.id]? (.unresolvedComponent mark.position)

def declBytes (d : Decl) : Except CompileError Int := return a.registry.bytes (← a.declType d)

def exprBytes (mark : Mark) : Except CompileError Int := return a.registry.bytes (← a.exprType mark)

end Analysis
end MmixCompiler
