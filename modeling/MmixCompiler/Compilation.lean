import MmixCompiler.Event
import MmixCompiler.Mmix.Listing
import MmixCompiler.Report

/-! Compiling a program: from its text to the listing for the assembler. -/

namespace MmixCompiler

structure Compilation where
  listing : String
  report : Report

/-- Compilation tells its progress, also when it fails. Events are kept latest first. -/
abbrev Compile := ExceptT CompileError (StateM (List Event))

namespace Compile

def tell (e : Event) : Compile Unit := modify (e :: ·)

def tellAll (es : List Event) : Compile Unit := modify (es.reverse ++ ·)

def semantic {α : Type} (r : Except SemanticError α) : Compile α :=
  liftM (r.mapError CompileError.semantic)

def parse (src : String) : Compile Program := do
  let (result, reader) := Program.parse src
  tellAll (reader.trail.reverse.map fun (rule, position) => .rule rule position)
  let program ← liftM (result.mapError CompileError.parse)
  tell (.declarations program.decls.length)
  return program

def analyze (p : Program) : Compile Analysis := do
  let bindings ← semantic p.bind
  tell (.bindings bindings.size)
  let ((), typer) ← semantic ((p.resolveTypes bindings).run {})
  tell (.typeExprs typer.typing.typeTypes.size)
  let ((), typer) ← semantic ((p.checkTypes bindings).run typer)
  tell (.exprs typer.typing.exprTypes.size)
  let places ← semantic (p.places bindings)
  tell (.places places.size)
  return ⟨bindings, typer.typing, places⟩

def layout (p : Program) (a : Analysis) : Compile (Layout × Supply) := do
  let (result, planner) := p.layout a {}
  tellAll ((Decl.functionsAll 1 p.decls).filterMap fun (_, d) =>
    planner.layout.frames[d.id]?.map (.frame d.name))
  liftM result
  return (planner.layout, planner.supply)

def code (p : Program) (a : Analysis) (l : Layout) (s : Supply) : Compile (Code × Supply) := do
  let (result, generator) := p.code a l s
  tellAll (p.bodies.filterMap fun (d, _) => do
    return .body d.name (← l.frames[d.id]?).label (← generator.code.bodies[d.id]?))
  liftM result
  return (generator.code, generator.supply)

def chunks (p : Program) (l : Layout) (c : Code) (s : Supply) : Compile (Chunks × Supply) := do
  let (chunks, s) ← liftM (p.chunks l c s)
  tellAll ((p.bodies.zip chunks.code).map fun ((d, _), chunk) =>
    .chunk d.name chunk.frame.label chunk.stmts.length)
  tell (.chunks chunks.data.length chunks.code.length)
  return (chunks, s)

def fresh {α : Type} (f : Fresh α) (s : Supply) : Compile (α × Supply) :=
  match f.run.run s with
  | (.ok a, s) => return (a, s)
  | (.error e, _) => throw e

def routines (registers : Nat) : List CodeChunk → Supply → Compile (List Routine.Allocated)
  | [], _ => return []
  | c :: cs, s => do
    let (routine, s) ← fresh (c.select registers) s
    tell (.instructions c.frame.label routine.instrs.length)
    let (allocated, s) ← fresh (routine.allocate registers) s
    tellAll (allocated.events.map (.allocation c.frame.label))
    return allocated :: (← routines registers cs s)

end Compile

open Compile

def compileText (src : String) (registers : Nat) : Compile Compilation := do
  let p ← parse src
  let a ← analyze p
  let (l, s) ← layout p a
  let (c, s) ← code p a l s
  let (chunks, s) ← chunks p l c s
  let allocated ← routines registers chunks.code s
  let report ← liftM (p.report a l c chunks allocated)
  let listing ← liftM (listing registers chunks.data (allocated.map (·.routine)))
  return ⟨listing, report⟩

/-- The outcome of a compilation, and its events in their order. -/
def compile (src : String) (registers : Nat) : Except CompileError Compilation × List Event :=
  let (result, events) := (compileText src registers).run.run []
  (result, events.reverse)

end MmixCompiler
