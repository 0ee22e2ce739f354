import MmixCompiler.Analysis
import MmixCompiler.Frame.Basic

/-! Laying out frames. Locals fill a frame from the frame pointer downwards in the order of their
declaration; the area for arguments is as large as the largest call of the function needs. Frames
are made in source order, a function's own before those of the functions in its body. -/

namespace MmixCompiler

mutual

/-- The functions of a declaration, itself included, each with its depth. -/
def Decl.functions (depth : Nat) : Decl → List (Nat × Decl)
  | .typed .. => []
  | d@(.proto ..) => [(depth, d)]
  | d@(.function _ _ _ _ body) => (depth, d) :: body.functions (depth + 1)

def Stmt.functions (depth : Nat) : Stmt → List (Nat × Decl)
  | .expr _ value => value.functions depth
  | .assign _ dst src => dst.functions depth ++ src.functions depth
  | .cond _ test yes no =>
    test.functions depth ++ Stmt.functionsAll depth yes ++ Stmt.functionsAll depth no
  | .loop _ test body => test.functions depth ++ Stmt.functionsAll depth body

def Expr.functions (depth : Nat) : Expr → List (Nat × Decl)
  | .lit .. | .name .. | .new .. => []
  | .call _ _ args => Expr.functionsAll depth args
  | .binary _ _ lhs rhs => lhs.functions depth ++ rhs.functions depth
  | .unary _ _ operand => operand.functions depth
  | .cast _ value _ => value.functions depth
  | .del _ value => value.functions depth
  | .index _ array index => array.functions depth ++ index.functions depth
  | .field _ record _ => record.functions depth
  | .block _ stmts value decls =>
    Decl.functionsAll depth decls ++ Stmt.functionsAll depth stmts ++ value.functions depth

def Decl.functionsAll (depth : Nat) : List Decl → List (Nat × Decl)
  | [] => []
  | d :: ds => d.functions depth ++ Decl.functionsAll depth ds

def Stmt.functionsAll (depth : Nat) : List Stmt → List (Nat × Decl)
  | [] => []
  | s :: ss => s.functions depth ++ Stmt.functionsAll depth ss

def Expr.functionsAll (depth : Nat) : List Expr → List (Nat × Decl)
  | [] => []
  | e :: es => e.functions depth ++ Expr.functionsAll depth es

end

def Decl.body? : Decl → Option Expr
  | .function _ _ _ _ body => some body
  | _ => none

def Decl.params : Decl → List Decl
  | .typed .. => []
  | .proto _ _ params _ | .function _ _ params _ _ => params

/-- The walk of a function's body, without the bodies of functions in it. -/
def Decl.ownWalk (d : Decl) : List Visit := (d.body?.map (Expr.walk false)).getD []

def Decl.locals (d : Decl) : List Decl :=
  d.ownWalk.filterMap fun
    | .enter (.decl l@(.typed _ .variable ..)) => some l
    | _ => none

def Decl.ownExprs (d : Decl) : List Expr :=
  d.ownWalk.filterMap fun
    | .enter (.expr e) => some e
    | _ => none

/-- The bytes that an expression by itself needs for arguments: the static link and the arguments of
a call, and room for its result. -/
def Analysis.argBytes (a : Analysis) : Expr → Except CompileError Int
  | .call mark _ args => do
    let bytes ← args.foldlM (fun total e => return total + (← a.exprBytes e.mark)) Word.size
    let result ← a.declType (← a.binding mark)
    return if a.registry.isVoid result then bytes else max bytes (a.registry.bytes result)
  | .new .. | .del .. => return 2 * Word.size
  | _ => return 0

/-- The places of locals, each below those before it, and their bytes together. -/
def Analysis.placeLocals (a : Analysis) (function : Decl) (depth : Nat) :
    Int → List Decl → Except CompileError (Int × List (NodeId × Access))
  | total, [] => return (total, [])
  | total, d :: ds => do
    let bytes ← a.declBytes d
    match Word.checked (total + bytes) with
    | none =>
      throw (.semantic ⟨function.position, .type (.frameTooLarge function.name)⟩)
    | some total =>
      let (all, places) ← a.placeLocals function depth total ds
      return (all, (d.id, .relative (-total) depth bytes) :: places)

/-- The places of parameters, each above those before it. -/
def Analysis.placeParams (a : Analysis) (depth : Nat) :
    Int → List Decl → Except CompileError (List (NodeId × Access))
  | _, [] => return []
  | offset, d :: ds => do
    let bytes ← a.declBytes d
    let offset := offset + bytes
    return (d.id, .relative offset depth bytes) :: (← a.placeParams depth offset ds)

/-- The frame of a function and the places of its variables. -/
def Analysis.frame (a : Analysis) (depth : Nat) (d : Decl) (s : Supply) :
    Except CompileError (Frame × List (NodeId × Access) × Supply) := do
  let args ← d.ownExprs.foldlM (fun most e => return max most (← a.argBytes e)) 0
  let (locals, localPlaces) ← a.placeLocals d depth 0 d.locals
  let paramPlaces ← a.placeParams depth 0 d.params
  if (Word.checked (locals + args)).isNone ∨ (Word.checked (locals + args + Frame.overhead)).isNone then
    throw (.semantic ⟨d.position, .type (.frameTooLarge d.name)⟩)
  else
    let (label, s) := if depth = 1 ∨ d.body?.isNone then (.named d.name, s) else s.label
    let (frame, s) := Frame.make label depth locals args s
    return (frame, localPlaces ++ paramPlaces, s)

structure Planner where
  supply : Supply
  layout : Layout := {}

/-- Laying out keeps what it has when it fails. -/
abbrev Plan := ExceptT CompileError (StateM Planner)

def Analysis.planFunction (a : Analysis) (depth : Nat) (d : Decl) : Plan Unit := do
  let s ← get
  let (frame, places, supply) ← liftM (a.frame depth d s.supply)
  set ({ supply, layout :=
    { frames := s.layout.frames.insert d.id frame,
      accesses := s.layout.accesses.insertMany places } } : Planner)

/-- Lays out a top-level declaration: a variable, or a function and those within it. -/
def Analysis.planDecl (a : Analysis) (d : Decl) : Plan Unit := do
  match d with
  | .typed mark .variable name _ =>
    let bytes ← liftM (a.declBytes d)
    modify fun s => { s with layout :=
      { s.layout with accesses := s.layout.accesses.insert mark.id (.absolute (.named name) bytes) } }
  | _ => (d.functions 1).forM fun (depth, f) => a.planFunction depth f

def Program.plan (p : Program) (a : Analysis) : Plan Unit := p.decls.forM a.planDecl

def Program.layout (p : Program) (a : Analysis) (s : Supply) :
    Except CompileError Unit × Planner :=
  (p.plan a).run.run { supply := s }

end MmixCompiler
