import MmixCompiler.Error
import MmixCompiler.Mmix.Op
import MmixCompiler.Text.Decimal
import Std.Data.TreeMap

/-! Instructions as register allocation sees them: an operation is a template and the temporaries
that it reads and writes. In a template a backquote, `s` or `d` and a number stand for the temporary
of that number among those read or written. -/

namespace MmixCompiler.Mmix

structure Oper where
  template : String
  uses : List Temp := []
  defs : List Temp := []
  /-- Where the operation may go, apart from the next one. -/
  jumps : List Label := []
deriving DecidableEq

inductive Instr where
  | label (label : Label)
  | oper (oper : Oper)
deriving DecidableEq

namespace Instr

def uses : Instr → List Temp
  | .label _ => []
  | .oper o => o.uses

def defs : Instr → List Temp
  | .label _ => []
  | .oper o => o.defs

def jumps : Instr → List Label
  | .label _ => []
  | .oper o => o.jumps

def label? : Instr → Option Label
  | .label l => some l
  | .oper _ => none

end Instr

def Op.oper (op : Op) : Oper := ⟨op.opcode ++ " " ++ op.operands, op.uses, op.defs, op.jumps⟩

def Op.instr (op : Op) : Instr := .oper op.oper

inductive Piece where
  | char (c : Char)
  | read (index : Nat)
  | written (index : Nat)
  | malformed

/-- The parts of a template. A number that is left out is zero. -/
def pieces : List Char → List Piece
  | [] => []
  | '`' :: 's' :: cs =>
    .read (Text.decimal (cs.takeWhile Char.isDigit)) :: pieces (cs.dropWhile Char.isDigit)
  | '`' :: 'd' :: cs =>
    .written (Text.decimal (cs.takeWhile Char.isDigit)) :: pieces (cs.dropWhile Char.isDigit)
  | '`' :: _ => [.malformed]
  | c :: cs => .char c :: pieces cs
termination_by cs => cs.length
decreasing_by
  all_goals
    have := (List.dropWhile_sublist Char.isDigit (l := cs)).length_le
    simp only [List.length_cons]
    omega

def Oper.piece (o : Oper) (operand : Temp → Except CompileError String) :
    Piece → Except CompileError String
  | .char c => return c.toString
  | .read i => named o.uses i
  | .written i => named o.defs i
  | .malformed => throw (.internal (.malformed o.template))
where
  named (temps : List Temp) (i : Nat) : Except CompileError String :=
    match temps[i]? with
    | some t => operand t
    | none => throw (.internal (.missingOperand o.template))

/-- The template of an operation with its temporaries put in. -/
def Oper.expand (o : Oper) (operand : Temp → Except CompileError String) :
    Except CompileError String := do
  return String.join (← (pieces o.template.toList).mapM (o.piece operand))

def Instr.text : Instr → Except CompileError String
  | .label l => return l.text ++ ":"
  | .oper o => return "    " ++ (← o.expand fun t => return t.text)

abbrev Registers := Std.TreeMap Temp Nat

/-- The register of a temporary. The frame pointer's is fixed. -/
def Registers.operand (regs : Registers) (fp : Temp) (t : Temp) : Except CompileError String :=
  if t = fp then return "$253"
  else match regs[t]? with
    | some n => return "$" ++ toString n
    | none => throw (.internal (.noRegister t))

def Instr.format (i : Instr) (fp : Temp) (regs : Registers) : Except CompileError String :=
  match i with
  | .label l => return l.text
  | .oper o => o.expand (regs.operand fp)

end MmixCompiler.Mmix
