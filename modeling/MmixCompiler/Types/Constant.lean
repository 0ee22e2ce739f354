import MmixCompiler.Scope.Error
import MmixCompiler.Word

/-! Constant expressions: integer literals under signs and arithmetic, every value of which has to fit
a word. -/

namespace MmixCompiler

/-- A value that fits a word, or an overflow at this place. -/
def Word.constant (position : Position) (value : Int) : Except SemanticError Int :=
  if Word.Fits value then .ok value else .error ⟨position, .type .constantOverflow⟩

/-- An arithmetic operator on integers; division goes toward zero. -/
def BinaryOp.onIntegers : BinaryOp → Int → Int → Int
  | .add, a, b => a + b
  | .sub, a, b => a - b
  | .mul, a, b => a * b
  | .div, a, b => a.tdiv b
  | .mod, a, b => a.tmod b
  | _, a, _ => a

def BinaryOp.isDivision : BinaryOp → Bool
  | .div | .mod => true
  | _ => false

/-- The value of a remainder fits a word exactly if that of the quotient does. -/
def BinaryOp.rangeWitness : BinaryOp → Int → Int → Int
  | .mod, a, b => a.tdiv b
  | op, a, b => op.onIntegers a b

def Expr.constant : Expr → Except SemanticError Int
  | .lit _ (.int value) => .ok value
  | .unary _ .plus operand => operand.constant
  | .unary mark .minus operand => do Word.constant mark.position (-(← operand.constant))
  | .binary mark op lhs rhs =>
    if op.isArithmetic then do
      let a ← lhs.constant
      let b ← rhs.constant
      if b = 0 ∧ op.isDivision then .error ⟨mark.position, .type .constantDivision⟩
      else
        let _ ← Word.constant mark.position (op.rangeWitness a b)
        return op.onIntegers a b
    else .error ⟨mark.position, .nonConstant⟩
  | .lit mark _ | .unary mark _ _ | .name mark _ | .call mark _ _ | .cast mark _ _ | .new mark _
  | .del mark _ | .index mark _ _ | .field mark _ _ | .block mark _ _ _ =>
    .error ⟨mark.position, .nonConstant⟩

end MmixCompiler
