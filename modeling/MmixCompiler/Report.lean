import MmixCompiler.Register.Allocation
import MmixCompiler.Text.Json

/-! A report of what every phase found. -/

namespace MmixCompiler

open Mmix

structure Report where
  bindings : List Json
  types : List Json
  frames : List Json
  accesses : List Json
  bodies : List Json
  code : List Json
  data : List Json
  chunks : List Json
  routines : List Json

namespace Json

def ofLabel (l : Label) : Json := .str l.text

def ofPosition (p : Position) : Json := .str p.text

def ofTemps (ts : TempSet) : Json := .arr (ts.map fun t => .str t.text)

def ofOption (s : Option String) : Json := (s.map Json.str).getD .null

def ofFrame (f : Frame) : Json :=
  .obj [("label", ofLabel f.label), ("depth", .int f.depth), ("locs_size", .int f.locals),
    ("args_size", .int f.args), ("size", .int f.size), ("fp", .int f.fp), ("rv", .int f.rv)]

def ofAccess : Access → Json
  | .absolute label size => .obj [("Absolute", .obj [("label", ofLabel label), ("size", .int size)])]
  | .relative offset depth size =>
    .obj [("Relative", .obj [("offset", .int offset), ("depth", .int depth), ("size", .int size)])]

def ofData (d : DataChunk) : Json :=
  .obj [("label", ofLabel d.label), ("size", .int d.size), ("init", ofOption d.init)]

def ofChunk (c : CodeChunk) : Json :=
  .obj [("label", ofLabel c.frame.label), ("stmts", .arr (c.stmts.map fun s => .str s.text))]

/-- The registers of temporaries, in the order of the temporaries' texts. -/
def ofRegisters (regs : Registers) : Json :=
  let entries := regs.toList.map fun (t, n) => (t.text, "$" ++ toString n)
  let sorted := entries.mergeSort fun a b => decide (a.1 ≤ b.1)
  .obj (sorted.map fun (t, r) => (t, .str r))

def ofInstr (live : Liveness) (index : Nat) (i : Instr) : Except CompileError Json := do
  return .obj [("instr", .str (← i.text)), ("live_in", ofTemps (live.liveIn index)),
    ("live_out", ofTemps (live.liveOut index))]

def ofAllocated (a : Routine.Allocated) : Except CompileError Json := do
  let r := a.routine
  let instrs ← r.instrs.zipIdx.mapM fun (i, index) => ofInstr a.liveness index i
  return .obj [("label", ofLabel r.frame.label), ("temp_size", .int r.spilled),
    ("instrs", .arr instrs), ("registers", ofRegisters (r.registers.getD ∅))]

end Json

def Program.nodes (p : Program) : List Node :=
  p.walk.filterMap fun
    | .enter n => some n
    | .leave _ => none

namespace Node

def reportBinding (a : Analysis) : Node → Option Json
  | .expr e => a.bindings[e.id]?.map fun d =>
    .obj [("position", .ofPosition e.position), ("name", .str d.name),
      ("declared_at", .ofPosition d.position)]
  | _ => none

def reportType (a : Analysis) (n : Node) : Option Json :=
  let type := match n with
    | .decl d => a.typing.declTypes[d.id]?
    | .expr e => a.typing.exprTypes[e.id]?
    | _ => none
  type.map fun t =>
    .obj [("position", .ofPosition n.mark.position), ("type", .str (a.registry.text t))]

def reportFrame (l : Layout) : Node → Except CompileError (Option Json)
  | .decl d@(.proto ..) | .decl d@(.function ..) => do
    return some (.obj [("function", .str d.name), ("frame", .ofFrame (← l.frame d))])
  | _ => return none

def reportAccess (l : Layout) : Node → Except CompileError (Option Json)
  | .decl d@(.typed _ .variable ..) | .decl d@(.typed _ .parameter ..) => do
    return some (.obj [("variable", .str d.name), ("position", .ofPosition d.position),
      ("access", .ofAccess (← l.access d))])
  | _ => return none

def reportBody (c : Code) : Node → Except CompileError (Option Json)
  | .decl d@(.function ..) => do
    return some (.obj [("function", .str d.name), ("code", .str (← c.body d).text)])
  | _ => return none

def reportCode (c : Code) (n : Node) : Option Json :=
  let entry (code : String) (address : Option String) : Json :=
    .obj [("position", .ofPosition n.mark.position), ("code", .str code),
      ("address", .ofOption address)]
  match n with
  | .stmt s => c.stmts[s.id]?.map fun code => entry code.text none
  | .expr e =>
    c.exprs[e.id]?.map fun code => entry code.text (c.addresses[e.id]?.map Ir.Expr.text)
  | _ => none

end Node

def Program.report (p : Program) (a : Analysis) (l : Layout) (c : Code) (chunks : Chunks)
    (routines : List Routine.Allocated) : Except CompileError Report := do
  let nodes := p.nodes
  return {
    bindings := nodes.filterMap (Node.reportBinding a)
    types := nodes.filterMap (Node.reportType a)
    frames := (← nodes.mapM (Node.reportFrame l)).filterMap id
    accesses := (← nodes.mapM (Node.reportAccess l)).filterMap id
    bodies := (← nodes.mapM (Node.reportBody c)).filterMap id
    code := nodes.filterMap (Node.reportCode c)
    data := chunks.data.map Json.ofData
    chunks := chunks.code.map Json.ofChunk
    routines := ← routines.mapM Json.ofAllocated }

def Report.sections (r : Report) : List (String × Json) :=
  [("bindings", .arr r.bindings), ("types", .arr r.types), ("frames", .arr r.frames),
    ("accesses", .arr r.accesses), ("imc", .arr r.bodies), ("ir", .arr r.code),
    ("data", .arr r.data), ("chunks", .arr r.chunks), ("asm", .arr r.routines)]

def Report.text (r : Report) : String := (Json.obj r.sections).text

end MmixCompiler
