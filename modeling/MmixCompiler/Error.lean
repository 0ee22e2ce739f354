import MmixCompiler.Ir.Basic
import MmixCompiler.Scope.Error
import MmixCompiler.Tree.Error

/-! Why a compilation stops. Only the first error is reported. An internal fault means that a phase
was given what no earlier phase produces. -/

namespace MmixCompiler

inductive InternalFault where
  | unboundName (position : Position)
  | untypedDecl (name : String)
  | untypedExpr (position : Position)
  | unresolvedType (position : Position)
  | unresolvedComponent (position : Position)
  | noFrame (name : String)
  | noAccess (name : String)
  | noBody (name : String)
  | noString (position : Position)
  | noAddress (position : Position)
  | cannotCall (caller callee : Label)
  | moveInto (dst : Ir.Expr)
  | stmtForm (stmt : Ir.Stmt)
  | exprForm (expr : Ir.Expr)
  | notTemp (expr : Ir.Expr)
  | malformed (template : String)
  | missingOperand (template : String)
  | noRegister (temp : Temp)
  | duplicateLabel (label : Label)
  | unknownLabel (label : Label)
  | sharedRegister (a b : Temp)
  | noRegisters (label : Label)
  | noAssignment (label : Label)

def InternalFault.message : InternalFault → String
  | .unboundName position => "unbound name at " ++ position.text
  | .untypedDecl name => "untyped declaration " ++ backquoted name
  | .untypedExpr position => "untyped expression at " ++ position.text
  | .unresolvedType position => "unresolved type at " ++ position.text
  | .unresolvedComponent position => "unresolved component at " ++ position.text
  | .noFrame name => "no frame for " ++ backquoted name
  | .noAccess name => "no access for " ++ backquoted name
  | .noBody name => "no code for " ++ backquoted name
  | .noString position => "no label for the string at " ++ position.text
  | .noAddress position => "expression at " ++ position.text ++ " has no address"
  | .cannotCall caller callee => caller.text ++ " cannot call " ++ callee.text
  | .moveInto dst => "cannot move into " ++ dst.text
  | .stmtForm stmt => "not a canonical statement: " ++ stmt.text
  | .exprForm expr => "not a canonical expression: " ++ expr.text
  | .notTemp expr => expr.text ++ " is not a temp"
  | .malformed template => "malformed template " ++ backquoted template
  | .missingOperand template => "missing operand in " ++ backquoted template
  | .noRegister temp => "no register for " ++ temp.text
  | .duplicateLabel label => "label " ++ label.text ++ " is defined twice"
  | .unknownLabel label => "jump to unknown label " ++ label.text
  | .sharedRegister a b => "interfering temps " ++ a.text ++ " and " ++ b.text ++ " share a register"
  | .noRegisters label => label.text ++ " has no registers"
  | .noAssignment label => label.text ++ " cannot be assigned registers"

inductive CompileError where
  | parse (error : ParseError)
  | semantic (error : SemanticError)
  | internal (fault : InternalFault)

def CompileError.message : CompileError → String
  | .parse error => error.message
  | .semantic error => error.message
  | .internal fault => "internal compiler error: " ++ fault.message

end MmixCompiler
