import MmixCompiler.Fresh

/-! Canonical code. A canonical list of statements moves one operation over temporaries at a time,
and a branch is followed by the label it goes to otherwise. Operands are evaluated from left to
right, each into a temporary of its own before the next begins. -/

namespace MmixCompiler.Ir

open Fresh

/-- The value of an expression in a temporary, given the flattened expression. -/
def intoTemp (e : Expr) (flat : Fresh (List Stmt × Expr)) : Fresh (List Stmt × Temp) :=
  match e with
  | .temp t => return ([], t)
  | _ => do
    let (code, e) ← flat
    let t ← temp
    return (code ++ [.move (.temp t) e], t)

mutual

/-- The effects of an expression and one operation over temporaries that gives its value. -/
def Expr.flatten : Expr → Fresh (List Stmt × Expr)
  | .const value => return ([], .const value)
  | .name label => return ([], .name label)
  | .temp temp => return ([], .temp temp)
  | .mem address => do
    let (code, t) ← intoTemp address address.flatten
    return (code, .mem (.temp t))
  | .binop op lhs rhs => do
    let (code, s) ← intoTemp lhs lhs.flatten
    let (more, t) ← intoTemp rhs rhs.flatten
    return (code ++ more, .binop op (.temp s) (.temp t))
  | .unop op operand => do
    let (code, t) ← intoTemp operand operand.flatten
    return (code, .unop op (.temp t))
  | .call label args => do
    let (code, temps) ← Expr.flattenArgs args
    return (code, .call label (temps.map .temp))
  | .after stmt value => do
    let code ← stmt.flatten
    let (more, value) ← value.flatten
    return (code ++ more, value)

/-- Several expressions, each in a temporary. -/
def Expr.flattenArgs : List Expr → Fresh (List Stmt × List Temp)
  | [] => return ([], [])
  | e :: es => do
    let (code, t) ← intoTemp e e.flatten
    let (more, ts) ← Expr.flattenArgs es
    return (code ++ more, t :: ts)

def Stmt.flatten : Stmt → Fresh (List Stmt)
  | .move (.temp t) src => do
    let (code, e) ← src.flatten
    return code ++ [.move (.temp t) e]
  | .move (.mem address) src => do
    let (code, s) ← intoTemp address address.flatten
    let (more, t) ← intoTemp src src.flatten
    return code ++ more ++ [.move (.mem (.temp s)) (.temp t)]
  | .move dst _ => fail (.moveInto dst)
  | .branch test yes no => do
    let (code, t) ← intoTemp test test.flatten
    let next ← label
    return code ++ [.branch (.temp t) yes next, .label next, .jump no]
  | .jump label => return [.jump label]
  | .label label => return [.label label]
  | .eval value => do
    let (code, e) ← value.flatten
    let t ← temp
    return code ++ [.move (.temp t) e]
  | .block stmts => Stmt.flattenAll stmts

def Stmt.flattenAll : List Stmt → Fresh (List Stmt)
  | [] => return []
  | s :: ss => do
    let code ← s.flatten
    return code ++ (← Stmt.flattenAll ss)

end
end MmixCompiler.Ir
