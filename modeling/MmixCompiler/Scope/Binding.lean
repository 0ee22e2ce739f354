import MmixCompiler.Scope.Basic
import Std.Data.TreeMap

/-! Binding names to declarations. The names of a tree are bound in source order, each in the scopes that
are open where it is used, until one of them is wrong. -/

namespace MmixCompiler

/-- The declaration of every use of a name, by the number of the using node. -/
abbrev Bindings := Std.TreeMap NodeId Decl

/-- The open scopes, and what has been bound so far. -/
structure Names where
  scopes : Scopes := .empty
  bindings : Bindings := ∅

abbrev Naming := StateT Names (Except SemanticError)

namespace Naming

def use (mark : Mark) (name : String) (expected : Category) : Naming Unit := do
  let d ← (← get).scopes.lookup name expected mark.position
  modify fun names => { names with bindings := names.bindings.insert mark.id d }

def declare (ds : List Decl) : Naming Unit := do
  let scopes ← (← get).scopes.declare ds
  modify fun names => { names with scopes }

/-- Opens a scope with these declarations, and closes it after what is inside. -/
def within (ds : List Decl) (inside : Naming Unit) : Naming Unit := do
  modify fun names => { names with scopes := names.scopes.push }
  declare ds
  inside
  modify fun names => { names with scopes := names.scopes.pop }

end Naming

open Naming

mutual

/-- Parameters are visible in the body only. -/
def Decl.bindNames : Decl → Naming Unit
  | .typed _ _ _ type => type.bindNames
  | .proto _ _ params result => do
    Decl.bindNamesAll params
    result.bindNames
  | .function _ _ params result body => do
    Decl.bindNamesAll params
    result.bindNames
    within params body.bindNames

/-- Components of a record are not visible anywhere. -/
def TypeExpr.bindNames : TypeExpr → Naming Unit
  | .atom _ _ => return
  | .named mark name => use mark name .type
  | .ptr _ target => target.bindNames
  | .arr _ length element => do
    length.bindNames
    element.bindNames
  | .record _ components => Decl.bindNamesAll components

def Stmt.bindNames : Stmt → Naming Unit
  | .expr _ value => value.bindNames
  | .assign _ dst src => do
    dst.bindNames
    src.bindNames
  | .cond _ test yes no => do
    test.bindNames
    Stmt.bindNamesAll yes
    Stmt.bindNamesAll no
  | .loop _ test body => do
    test.bindNames
    Stmt.bindNamesAll body

/-- The declarations of a block are visible in all of it. -/
def Expr.bindNames : Expr → Naming Unit
  | .lit _ _ => return
  | .name mark name => use mark name .variable
  | .call mark name args => do
    use mark name .function
    Expr.bindNamesAll args
  | .binary _ _ lhs rhs => do
    lhs.bindNames
    rhs.bindNames
  | .unary _ _ operand => operand.bindNames
  | .cast _ value type => do
    value.bindNames
    type.bindNames
  | .new _ type => type.bindNames
  | .del _ value => value.bindNames
  | .index _ array index => do
    array.bindNames
    index.bindNames
  | .field _ record _ => record.bindNames
  | .block _ stmts value decls =>
    within decls do
      Decl.bindNamesAll decls
      Stmt.bindNamesAll stmts
      value.bindNames

def Decl.bindNamesAll : List Decl → Naming Unit
  | [] => return
  | d :: ds => do
    d.bindNames
    Decl.bindNamesAll ds

def Stmt.bindNamesAll : List Stmt → Naming Unit
  | [] => return
  | t :: ts => do
    t.bindNames
    Stmt.bindNamesAll ts

def Expr.bindNamesAll : List Expr → Naming Unit
  | [] => return
  | e :: es => do
    e.bindNames
    Expr.bindNamesAll es

end

/-- All declarations are visible before the names in any of them are bound. -/
def Naming.ofProgram (p : Program) : Naming Unit := do
  declare p.decls
  Decl.bindNamesAll p.decls

/-- The bindings of a program, or the first thing wrong with its names. -/
def Program.bind (p : Program) : Except SemanticError Bindings := do
  let (_, names) ← (Naming.ofProgram p).run {}
  return names.bindings

end MmixCompiler
