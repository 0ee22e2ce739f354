import MmixCompiler.Scope.Binding
import MmixCompiler.Tree.Walk
import Std.Data.TreeSet

/-! Expressions that denote places in memory, and the demand for them. -/

namespace MmixCompiler

/-- Whether an expression denotes a place in memory, given that its operands are as they have to
be. -/
def Expr.isPlace (bindings : Bindings) : Expr → Bool
  | .name mark _ => (bindings[mark.id]?).any Decl.isStorage
  | .index .. | .field .. | .unary _ .deref _ => true
  | _ => false

def Node.place? : Node → Option Expr
  | .expr (.index _ array _) => some array
  | .expr (.field _ record _) => some record
  | .expr (.unary _ .addr operand) => some operand
  | .stmt (.assign _ dst _) => some dst
  | _ => none

def Program.places (p : Program) (bindings : Bindings) :
    Except SemanticError (Std.TreeSet NodeId) :=
  p.walk.foldlM (fun places v => do
    match v with
    | .enter _ => return places
    | .leave n =>
      match n.place? with
      | some e => if e.isPlace bindings then pure () else throw ⟨e.position, .notAddressable⟩
      | none => pure ()
      match n with
      | .expr e => return if e.isPlace bindings then places.insert e.id else places
      | _ => return places) ∅

end MmixCompiler
