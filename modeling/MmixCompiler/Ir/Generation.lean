import MmixCompiler.Frame.Layout

/-! Making intermediate code from trees. The code of every node is kept, so that it can be told where
an instruction comes from. -/

namespace MmixCompiler

/-- The code of a program's nodes. Bodies are kept by the numbers of their functions. -/
structure Code where
  exprs : Std.TreeMap NodeId Ir.Expr := ∅
  addresses : Std.TreeMap NodeId Ir.Expr := ∅
  stmts : Std.TreeMap NodeId Ir.Stmt := ∅
  bodies : Std.TreeMap NodeId Ir.Expr := ∅
  strings : Std.TreeMap NodeId (Label × String) := ∅

def Layout.frame (l : Layout) (d : Decl) : Except CompileError Frame :=
  orFault l.frames[d.id]? (.noFrame d.name)

def Layout.access (l : Layout) (d : Decl) : Except CompileError Access :=
  orFault l.accesses[d.id]? (.noAccess d.name)

def Code.body (c : Code) (d : Decl) : Except CompileError Ir.Expr :=
  orFault c.bodies[d.id]? (.noBody d.name)

/-- The frame pointer after following static links. -/
def Frame.link (f : Frame) : Nat → Ir.Expr
  | 0 => .temp f.fp
  | n + 1 => .mem (f.link n)

/-- The static link that a function passes to one it calls: the frame around the callee. -/
def Frame.linkTo (caller callee : Frame) : Except CompileError Ir.Expr :=
  if callee.depth = 1 then return .const 0
  else if callee.depth ≤ caller.depth + 1 then return caller.link (caller.depth + 1 - callee.depth)
  else throw (.internal (.cannotCall caller.label callee.label))

/-- The address of a variable, seen from a function. -/
def Access.address (access : Access) (f : Frame) (name : String) (position : Position) :
    Except CompileError Ir.Expr :=
  match access with
  | .absolute label _ => return .name label
  | .relative offset depth _ =>
    if depth ≤ f.depth then return .binop .add (f.link (f.depth - depth)) (.const offset)
    else throw (.semantic ⟨position, .inaccessible name⟩)

structure Generator where
  supply : Supply
  code : Code := {}

/-- Generation keeps what it has when it fails. -/
abbrev Gen := ExceptT CompileError (StateM Generator)

namespace Gen

def label : Gen Label :=
  modifyGet fun s =>
    let (label, supply) := s.supply.label
    (label, { s with supply })

def noteExpr (mark : Mark) (code : Ir.Expr) : Gen Unit :=
  modify fun s => { s with code := { s.code with exprs := s.code.exprs.insert mark.id code } }

def noteAddress (mark : Mark) (code : Ir.Expr) : Gen Unit :=
  modify fun s => { s with code := { s.code with addresses := s.code.addresses.insert mark.id code } }

def noteStmt (mark : Mark) (code : Ir.Stmt) : Gen Unit :=
  modify fun s => { s with code := { s.code with stmts := s.code.stmts.insert mark.id code } }

def noteBody (mark : Mark) (code : Ir.Expr) : Gen Unit :=
  modify fun s => { s with code := { s.code with bodies := s.code.bodies.insert mark.id code } }

def noteString (mark : Mark) (label : Label) (content : String) : Gen Unit :=
  modify fun s =>
    { s with code := { s.code with strings := s.code.strings.insert mark.id (label, content) } }

/-- The code of an expression that denotes no place. -/
def value (place : Bool) (mark : Mark) (code : Gen Ir.Expr) : Gen Ir.Expr := do
  if place then throw (.internal (.noAddress mark.position))
  else
    let code ← code
    noteExpr mark code
    return code

/-- The code of an expression that denotes a place: its address, or the word there. -/
def located (place : Bool) (mark : Mark) (address : Gen Ir.Expr) : Gen Ir.Expr := do
  let address ← address
  noteAddress mark address
  if place then return address
  else
    noteExpr mark (.mem address)
    return .mem address

end Gen

open Gen

def Literal.code (mark : Mark) : Literal → Gen Ir.Expr
  | .int value => return .const value
  | .char value => return .const value.toNat
  | .bool value => return .const (if value then 1 else 0)
  | .none | .null => return .const 0
  | .str content => do
    let label ← label
    noteString mark label content
    return .name label

section
variable (a : Analysis) (layout : Layout)

mutual

/-- The code of an expression in a function: its address if `place` is set, and otherwise its
value. -/
def Expr.code (f : Frame) (place : Bool) : Expr → Gen Ir.Expr
  | .lit mark literal => value place mark (literal.code mark)
  | .name mark _ =>
    located place mark do
      let d ← liftM (a.binding mark)
      let access ← liftM (layout.access d)
      liftM (access.address f d.name mark.position)
  | .call mark _ args =>
    value place mark do
      let callee ← liftM (layout.frame (← liftM (a.binding mark)))
      let link ← liftM (f.linkTo callee)
      return .call callee.label (link :: (← Expr.codes f args))
  | .binary mark op lhs rhs =>
    value place mark do return .binop op (← lhs.code f false) (← rhs.code f false)
  | .unary mark .plus operand => value place mark (operand.code f false)
  | .unary mark .minus operand => value place mark do return .unop .neg (← operand.code f false)
  | .unary mark .not operand => value place mark do return .unop .not (← operand.code f false)
  | .unary mark .addr operand => value place mark (operand.code f true)
  | .unary mark .deref operand => located place mark (operand.code f false)
  | .cast mark operand _ =>
    value place mark do
      let code ← operand.code f false
      let target ← liftM (a.exprType mark)
      return if a.registry.isChar target then .binop .mod code (.const 256) else code
  | .new mark type =>
    value place mark do
      let t ← liftM (a.typeExprType type.mark)
      return .call (.named "new") [.const 0, .const (a.registry.bytes t)]
  | .del mark operand =>
    value place mark do return .call (.named "del") [.const 0, ← operand.code f false]
  | .index mark array index =>
    located place mark do
      let base ← array.code f true
      let index ← index.code f false
      let bytes ← liftM (a.exprBytes mark)
      return .binop .add base (.binop .mul index (.const bytes))
  | .field mark record _ =>
    located place mark do
      let base ← record.code f true
      let t ← liftM (a.exprType record.mark)
      let index ← liftM (a.fieldIndex mark)
      return .binop .add base (.const (a.registry.fieldOffset t index))
  | .block mark stmts result decls =>
    value place mark do
      Decl.codeBodies decls
      let stmts ← Stmt.codes f stmts
      return .after (.block stmts) (← result.code f false)

def Expr.codes (f : Frame) : List Expr → Gen (List Ir.Expr)
  | [] => return []
  | e :: es => do
    let code ← e.code f false
    return code :: (← Expr.codes f es)

def Stmt.code (f : Frame) : Stmt → Gen Ir.Stmt
  | .expr mark value => do
    let code := .eval (← value.code f false)
    noteStmt mark code
    return code
  | .assign mark dst src => do
    let address ← dst.code f true
    noteExpr dst.mark (.mem address)
    let code := .move (.mem address) (← src.code f false)
    noteStmt mark code
    return code
  | .cond mark test yes no => do
    let test ← test.code f false
    let yesLabel ← label
    let noLabel ← label
    let endLabel ← label
    let yes ← Stmt.codes f yes
    let no ← Stmt.codes f no
    let code := .block [.branch test yesLabel noLabel, .label yesLabel, .block yes, .jump endLabel,
      .label noLabel, .block no, .label endLabel]
    noteStmt mark code
    return code
  | .loop mark test body => do
    let test ← test.code f false
    let testLabel ← label
    let bodyLabel ← label
    let endLabel ← label
    let body ← Stmt.codes f body
    let code := .block [.label testLabel, .branch test bodyLabel endLabel, .label bodyLabel,
      .block body, .jump testLabel, .label endLabel]
    noteStmt mark code
    return code

def Stmt.codes (f : Frame) : List Stmt → Gen (List Ir.Stmt)
  | [] => return []
  | s :: ss => do
    let code ← s.code f
    return code :: (← Stmt.codes f ss)

def Decl.codeBody : Decl → Gen Unit
  | .typed .. | .proto .. => return
  | .function mark name params result body => do
    let f ← liftM (layout.frame (.function mark name params result body))
    noteBody mark (← body.code f false)

def Decl.codeBodies : List Decl → Gen Unit
  | [] => return
  | d :: ds => do
    d.codeBody
    Decl.codeBodies ds

end
end

def Program.code (p : Program) (a : Analysis) (l : Layout) (s : Supply) :
    Except CompileError Unit × Generator :=
  (Decl.codeBodies a l p.decls).run.run { supply := s }

end MmixCompiler
