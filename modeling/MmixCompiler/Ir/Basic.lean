import MmixCompiler.Supply
import MmixCompiler.Tree.Basic

/-! Intermediate code. Expressions denote words and statements denote effects; the operands of both
are trees. -/

namespace MmixCompiler.Ir

inductive UnaryOp where
  | neg | not
deriving DecidableEq

mutual

inductive Expr where
  | const (value : Int)
  | name (label : Label)
  | temp (temp : Temp)
  | mem (address : Expr)
  | binop (op : BinaryOp) (lhs rhs : Expr)
  | unop (op : UnaryOp) (operand : Expr)
  /-- A call; the first argument is the static link. -/
  | call (label : Label) (args : List Expr)
  /-- A statement, then a value. -/
  | after (stmt : Stmt) (value : Expr)
deriving Inhabited

inductive Stmt where
  /-- A move into a temporary or a place in memory. -/
  | move (dst src : Expr)
  | branch (test : Expr) (yes no : Label)
  | jump (label : Label)
  | label (label : Label)
  | eval (value : Expr)
  | block (stmts : List Stmt)

end

def opText : BinaryOp → String
  | .or => "OR"
  | .xor => "XOR"
  | .and => "AND"
  | .eq => "EQU"
  | .ne => "NEQ"
  | .lt => "LTH"
  | .gt => "GTH"
  | .le => "LEQ"
  | .ge => "GEQ"
  | .add => "ADD"
  | .sub => "SUB"
  | .mul => "MUL"
  | .div => "DIV"
  | .mod => "MOD"

def UnaryOp.text : UnaryOp → String
  | .neg => "NEG"
  | .not => "NOT"

mutual

def Expr.text : Expr → String
  | .const value => "CONST(" ++ toString value ++ ")"
  | .name label => "NAME(" ++ label.text ++ ")"
  | .temp temp => "TEMP(" ++ temp.text ++ ")"
  | .mem address => "MEM(" ++ address.text ++ ")"
  | .binop op lhs rhs => "BINOP(" ++ opText op ++ ", " ++ lhs.text ++ ", " ++ rhs.text ++ ")"
  | .unop op operand => "UNOP(" ++ op.text ++ ", " ++ operand.text ++ ")"
  | .call label args => "CALL(" ++ ", ".intercalate (label.text :: Expr.texts args) ++ ")"
  | .after stmt value => "SEXPR(" ++ stmt.text ++ ", " ++ value.text ++ ")"

def Stmt.text : Stmt → String
  | .move dst src => "MOVE(" ++ dst.text ++ ", " ++ src.text ++ ")"
  | .branch test yes no =>
    "CJUMP(" ++ test.text ++ ", " ++ yes.text ++ ", " ++ no.text ++ ")"
  | .jump label => "JUMP(" ++ label.text ++ ")"
  | .label label => "LABEL(" ++ label.text ++ ")"
  | .eval value => "ESTMT(" ++ value.text ++ ")"
  | .block stmts => "STMTS(" ++ ", ".intercalate (Stmt.texts stmts) ++ ")"

def Expr.texts : List Expr → List String
  | [] => []
  | e :: es => e.text :: Expr.texts es

def Stmt.texts : List Stmt → List String
  | [] => []
  | s :: ss => s.text :: Stmt.texts ss

end

end MmixCompiler.Ir
