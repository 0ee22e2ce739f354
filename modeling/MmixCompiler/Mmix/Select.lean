import MmixCompiler.Chunk
import MmixCompiler.Mmix.Instr

/-! Choosing operations for canonical code. -/

namespace MmixCompiler

namespace Mmix

open Fresh

inductive Line where
  | label (label : Label)
  | op (op : Op)

def Line.instr : Line → Instr
  | .label l => .label l
  | .op o => o.instr

/-- The largest offset that a store takes as a constant. -/
def maxOffset : Nat := 255

def storeArg (arg : Temp) (offset : Nat) : Fresh (List Op) :=
  if offset ≤ maxOffset then return [.store (.temp arg) .sp (.imm offset)]
  else do
    let t ← temp
    return loadConst (.temp t) offset ++ [.store (.temp arg) .sp (.reg (.temp t))]

/-- The operation that computes a binary operator, or that compares for it. -/
def aluOf : BinaryOp → Alu
  | .or => .or
  | .xor => .xor
  | .and => .and
  | .add => .add
  | .sub => .sub
  | .mul => .mul
  | .div | .mod => .div
  | .eq | .ne | .lt | .gt | .le | .ge => .cmp

def finish (dst : Reg) : BinaryOp → List Op
  | .mod => [.get dst .remainder]
  | .eq => [.test .zero dst dst]
  | .ne => [.test .nonzero dst dst]
  | .lt => [.test .negative dst dst]
  | .gt => [.test .positive dst dst]
  | .le => [.test .nonpositive dst dst]
  | .ge => [.test .nonnegative dst dst]
  | _ => []

end Mmix

open Fresh Mmix

def Ir.Expr.operand : Ir.Expr → Fresh Temp
  | .temp t => return t
  | e => fail (.notTemp e)

/-- Stores arguments one word after the other, beginning with the given number. -/
def Ir.Expr.storeArgs : Nat → List Ir.Expr → Fresh (List Op)
  | _, [] => return []
  | i, e :: es => do
    let arg ← e.operand
    let ops ← storeArg arg (i * Word.size.toNat)
    return ops ++ (← Ir.Expr.storeArgs (i + 1) es)

/-- Operations that compute a canonical expression, with `kept` registers in use. -/
def Ir.Expr.select (kept : Nat) (dst : Temp) : Ir.Expr → Fresh (List Op)
  | .const value => return loadConst (.temp dst) value
  | .name label => return [.address (.temp dst) label]
  | .temp src => return [.alu .or (.temp dst) (.temp src) (.imm 0)]
  | .mem address => do
    let a ← address.operand
    return [.load (.temp dst) (.temp a) (.imm 0)]
  | .binop op lhs rhs => do
    let l ← lhs.operand
    let r ← rhs.operand
    return .alu (aluOf op) (.temp dst) (.temp l) (.reg (.temp r)) :: finish (.temp dst) op
  | .unop .neg operand => do
    let t ← operand.operand
    return [.neg (.temp dst) 0 (.temp t)]
  | .unop .not operand => do
    let t ← operand.operand
    return [.neg (.temp dst) 1 (.temp t)]
  | .call label args => do
    let ops ← Ir.Expr.storeArgs 0 args
    return ops ++ [.call kept label, .load (.temp dst) .sp (.imm 0)]
  | e@(.after ..) => fail (.exprForm e)

def Ir.Stmt.select (kept : Nat) : Ir.Stmt → Fresh (List Line)
  | .label l => return [.label l]
  | .jump l => return [.op (.jump l)]
  | .branch (.temp t) yes no => return [.op (.branch (.temp t) yes no)]
  | .move (.temp dst) src => return (← src.select kept dst).map .op
  | .move (.mem (.temp a)) (.temp t) => return [.op (.store (.temp t) (.temp a) (.imm 0))]
  | s => fail (.stmtForm s)

def Ir.Stmt.selectAll (kept : Nat) (stmts : List Ir.Stmt) : Fresh (List Line) :=
  return (← stmts.mapM (Ir.Stmt.select kept)).flatten

structure Routine where
  frame : Frame
  entry : Label
  exit : Label
  instrs : List Instr
  /-- Set once every temporary has a register. -/
  registers : Option Registers := none
  /-- Bytes of spilled temporaries. -/
  spilled : Int := 0

def CodeChunk.select (kept : Nat) (c : CodeChunk) : Fresh Routine := do
  let lines ← Ir.Stmt.selectAll kept c.stmts
  return { frame := c.frame, entry := c.entry, exit := c.exit, instrs := lines.map Line.instr }

end MmixCompiler
