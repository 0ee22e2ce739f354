import MmixCompiler.Position

/-! Program trees. Every node carries a mark: its number, by which tables refer to it, and its place
in the source. -/

namespace MmixCompiler

abbrev NodeId := Nat

structure Mark where
  id : NodeId
  position : Position
deriving DecidableEq, Inhabited

inductive AtomType where
  | int | char | bool | void
deriving DecidableEq

inductive Literal where
  | int (value : Nat)
  | char (value : Char)
  | bool (value : Bool)
  | none
  | null
  | str (value : String)
deriving DecidableEq

inductive BinaryOp where
  | or | xor | and | eq | ne | lt | gt | le | ge | add | sub | mul | div | mod
deriving DecidableEq

inductive UnaryOp where
  | plus | minus | not
  | addr
  | deref
deriving DecidableEq

namespace BinaryOp

def text : BinaryOp → String
  | .or => "|"
  | .xor => "^"
  | .and => "&"
  | .eq => "=="
  | .ne => "!="
  | .lt => "<"
  | .gt => ">"
  | .le => "<="
  | .ge => ">="
  | .add => "+"
  | .sub => "-"
  | .mul => "*"
  | .div => "/"
  | .mod => "%"

def isLogical : BinaryOp → Bool
  | .or | .xor | .and => true
  | _ => false

def isEquality : BinaryOp → Bool
  | .eq | .ne => true
  | _ => false

def isArithmetic : BinaryOp → Bool
  | .add | .sub | .mul | .div | .mod => true
  | _ => false

end BinaryOp

def UnaryOp.text : UnaryOp → String
  | .plus => "+"
  | .minus => "-"
  | .not => "!"
  | .addr => "$"
  | .deref => "@"

/-- What a declaration of one name with one type introduces. -/
inductive Role where
  | variable
  | type
  | parameter
  | component
deriving DecidableEq

mutual

inductive Decl where
  /-- A name of the given role and its type. -/
  | typed (mark : Mark) (role : Role) (name : String) (type : TypeExpr)
  | proto (mark : Mark) (name : String) (params : List Decl) (result : TypeExpr)
  | function (mark : Mark) (name : String) (params : List Decl) (result : TypeExpr) (body : Expr)

inductive TypeExpr where
  | atom (mark : Mark) (type : AtomType)
  | named (mark : Mark) (name : String)
  | ptr (mark : Mark) (target : TypeExpr)
  | arr (mark : Mark) (length : Expr) (element : TypeExpr)
  | record (mark : Mark) (components : List Decl)

inductive Stmt where
  | expr (mark : Mark) (value : Expr)
  | assign (mark : Mark) (dst src : Expr)
  | cond (mark : Mark) (test : Expr) (yes no : List Stmt)
  | loop (mark : Mark) (test : Expr) (body : List Stmt)

inductive Expr where
  | lit (mark : Mark) (value : Literal)
  | name (mark : Mark) (name : String)
  | call (mark : Mark) (name : String) (args : List Expr)
  | binary (mark : Mark) (op : BinaryOp) (lhs rhs : Expr)
  | unary (mark : Mark) (op : UnaryOp) (operand : Expr)
  | cast (mark : Mark) (value : Expr) (type : TypeExpr)
  | new (mark : Mark) (type : TypeExpr)
  | del (mark : Mark) (value : Expr)
  | index (mark : Mark) (array index : Expr)
  | field (mark : Mark) (record : Expr) (name : String)
  /-- Statements, then a value, in the scope of declarations. -/
  | block (mark : Mark) (stmts : List Stmt) (value : Expr) (decls : List Decl)

end

structure Program where
  decls : List Decl

namespace Decl

def mark : Decl → Mark
  | .typed m .. | .proto m .. | .function m .. => m

def id (d : Decl) : NodeId := d.mark.id

def position (d : Decl) : Position := d.mark.position

def name : Decl → String
  | .typed _ _ name _ | .proto _ name .. | .function _ name .. => name

/-- The declared type; that of the result for a function. -/
def type : Decl → TypeExpr
  | .typed _ _ _ type => type
  | .proto _ _ _ result | .function _ _ _ result _ => result

/-- Whether the declaration names storage that expressions can use. -/
def isStorage : Decl → Bool
  | .typed _ .variable .. | .typed _ .parameter .. => true
  | _ => false

end Decl

namespace TypeExpr

def mark : TypeExpr → Mark
  | .atom m _ | .named m _ | .ptr m _ | .arr m .. | .record m _ => m

def id (t : TypeExpr) : NodeId := t.mark.id

def position (t : TypeExpr) : Position := t.mark.position

end TypeExpr

namespace Stmt

def mark : Stmt → Mark
  | .expr m _ | .assign m .. | .cond m .. | .loop m .. => m

def id (s : Stmt) : NodeId := s.mark.id

def position (s : Stmt) : Position := s.mark.position

end Stmt

namespace Expr

def mark : Expr → Mark
  | .lit m _ | .name m _ | .call m .. | .binary m .. | .unary m .. | .cast m .. | .new m _
  | .del m _ | .index m .. | .field m .. | .block m .. => m

def id (e : Expr) : NodeId := e.mark.id

def position (e : Expr) : Position := e.mark.position

end Expr
end MmixCompiler
