import MmixCompiler.Types.Typing

/-! The typing rules of expressions, statements and functions. -/

namespace MmixCompiler

open Infer

def Infer.noting (mark : Mark) (find : Infer TypeId) : Infer TypeId := do
  let t ← find
  modify fun s =>
    { s with typing := { s.typing with exprTypes := s.typing.exprTypes.insert mark.id t } }
  return t

def Infer.require (holds : Registry → Bool) (position : Position) (fault : Registry → TypeFault) :
    Infer Unit := do
  let r ← registry
  if holds r then return
  else fail position (.type (fault r))

def Literal.typed : Literal → Infer TypeId
  | .int _ => return Registry.int
  | .char _ => return Registry.char
  | .bool _ => return Registry.bool
  | .none => return Registry.void
  | .null => ptr Registry.void
  | .str _ => ptr Registry.char

def BinaryOp.accepts (op : BinaryOp) (r : Registry) (lhs rhs : TypeId) : Bool :=
  if op.isLogical then r.isBool lhs && r.isBool rhs
  else if op.isArithmetic then r.equiv lhs rhs && (r.isInt lhs || r.isChar lhs)
  else if op.isEquality then r.equiv lhs rhs && r.isWord lhs
  else r.equiv lhs rhs && r.isCastable lhs

def BinaryOp.resultType (op : BinaryOp) : TypeId :=
  if op.isArithmetic then Registry.int else Registry.bool

def UnaryOp.typed (op : UnaryOp) (position : Position) (t : TypeId) : Infer TypeId := do
  let r ← registry
  let refuse : Infer TypeId := fail position (.type (.unaryOperand op (r.text t)))
  match op with
  | .plus | .minus => if r.isInt t then return Registry.int else refuse
  | .not => if r.isBool t then return Registry.bool else refuse
  | .addr => if r.isVoid t then refuse else ptr t
  | .deref =>
    match r.pointee? t with
    | some target => if r.isVoid target then refuse else return target
    | none => refuse

def Decl.signature? : Decl → Option (List Decl × TypeExpr)
  | .proto _ _ params result | .function _ _ params result _ => some (params, result)
  | .typed .. => none

section
variable (bindings : Bindings) (follow : Decl → Infer TypeId)

mutual

def Expr.typed : Expr → Infer TypeId
  | .lit mark value => noting mark value.typed
  | .name mark name => noting mark do follow (← binding bindings mark name)
  | .call mark name args =>
    noting mark do
      let d ← binding bindings mark name
      match d.signature? with
      | none => fail mark.position (.type (.notFunction name))
      | some (params, result) =>
        if params.length = args.length then
          Expr.checkArgs name params args
          result.resolve bindings follow
        else fail mark.position (.type (.argumentCount name params.length args.length))
  | .binary mark op lhs rhs =>
    noting mark do
      let s ← lhs.typed
      let t ← rhs.typed
      require (fun r => op.accepts r s t) mark.position fun r => .binaryOperands op (r.text s) (r.text t)
      return op.resultType
  | .unary mark op operand => noting mark do op.typed mark.position (← operand.typed)
  | .cast mark value type =>
    noting mark do
      let s ← value.typed
      let t ← type.resolve bindings follow
      require (fun r => r.isCastable s && r.isCastable t) mark.position fun r =>
        .cast (r.text s) (r.text t)
      return t
  | .new mark type =>
    noting mark do
      let t ← type.resolve bindings follow
      require (fun r => !r.isVoid t) mark.position fun _ => .allocateVoid
      ptr t
  | .del mark value =>
    noting mark do
      let t ← value.typed
      require (fun r => r.isPtr t && !r.isVoidPtr t) mark.position fun r => .deallocate (r.text t)
      return Registry.void
  | .index mark array index =>
    noting mark do
      let t ← array.typed
      let i ← index.typed
      let r ← registry
      match r.element? t with
      | none => fail array.position (.type (.notArray (r.text t)))
      | some element =>
        require (fun r => r.isInt i) index.position fun r => .index (r.text i)
        return element
  | .field mark record name =>
    noting mark do
      let t ← record.typed
      let r ← registry
      match r.fields? t with
      | none => fail record.position (.type (.notRecord (r.text t)))
      | some fields =>
        match fields.findIdx? (fun f => f.1 = name), fields.lookup name with
        | some index, some type =>
          modify fun s =>
            { s with typing :=
              { s.typing with fieldIndices := s.typing.fieldIndices.insert mark.id index } }
          return type
        | _, _ => fail mark.position (.type (.noComponent name))
  | .block mark stmts value decls =>
    noting mark do
      Decl.checkBodies decls
      Stmt.checkAll stmts
      value.typed

def Expr.checkArgs (function : String) : List Decl → List Expr → Infer Unit
  | param :: params, arg :: args => do
    let t ← arg.typed
    let s ← follow param
    require (fun r => r.equiv s t) arg.position fun r =>
      .argumentType param.name function (r.text s) (r.text t)
    require (fun r => r.isWord s) arg.position fun _ => .argumentForm param.name
    Expr.checkArgs function params args
  | _, _ => return

def Stmt.check : Stmt → Infer Unit
  | .expr _ value => do let _ ← value.typed
  | .assign mark dst src => do
    let s ← dst.typed
    let t ← src.typed
    require (fun r => r.equiv s t) mark.position fun r => .notAssignable (r.text t) (r.text s)
    require (fun r => r.isWord s) mark.position fun r => .notAssignedTo (r.text s)
  | .cond _ test yes no => do
    let t ← test.typed
    require (fun r => r.isBool t) test.position fun r => .branchTest (r.text t)
    Stmt.checkAll yes
    Stmt.checkAll no
  | .loop _ test body => do
    let t ← test.typed
    require (fun r => r.isBool t) test.position fun r => .loopTest (r.text t)
    Stmt.checkAll body

def Stmt.checkAll : List Stmt → Infer Unit
  | [] => return
  | s :: ss => do
    s.check
    Stmt.checkAll ss

/-- The body of a function has to be of the type of its result. -/
def Decl.checkBody : Decl → Infer Unit
  | .function _ name _ result body => do
    let s ← result.resolve bindings follow
    let t ← body.typed
    require (fun r => r.equiv s t) body.position fun r => .wrongResult name (r.text s) (r.text t)
  | .typed .. | .proto .. => return

def Decl.checkBodies : List Decl → Infer Unit
  | [] => return
  | d :: ds => do
    d.checkBody
    Decl.checkBodies ds

end
end

/-- Parameters are words, and results are words or nothing. -/
def Decl.checkSignature (d : Decl) : Infer Unit := do
  match (← get).typing.declTypes[d.id]? with
  | none => return
  | some t =>
    match d with
    | .typed _ .parameter name _ =>
      require (fun r => r.isWord t) d.position fun r => .parameterForm name (r.text t)
    | .proto .. | .function .. =>
      require (fun r => r.isWord t || r.isVoid t) d.position fun r => .resultForm d.name (r.text t)
    | _ => return

/-- Checks the expressions of a program whose types are resolved. -/
def Program.checkTypes (p : Program) (bindings : Bindings) : Infer Unit := do
  Decl.checkBodies bindings (p.typeOf bindings) p.decls
  p.allDecls.forM Decl.checkSignature

def Program.typing (p : Program) (bindings : Bindings) : Except SemanticError Typing := do
  let ((), s) ← (do p.resolveTypes bindings; p.checkTypes bindings : Infer Unit).run {}
  return s.typing

end MmixCompiler
