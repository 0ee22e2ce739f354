import MmixCompiler.Ir.Canonical
import MmixCompiler.Ir.Generation

/-! Chunks: regions of data, and the canonical code of functions. -/

namespace MmixCompiler

/-- A region of data: a string, or zeros. -/
structure DataChunk where
  label : Label
  size : Int
  init : Option String
deriving DecidableEq

def DataChunk.zeros (label : Label) (size : Int) : DataChunk := ⟨label, size, none⟩

/-- A string: one word for each byte, and a zero. -/
def DataChunk.string (label : Label) (content : String) : DataChunk :=
  ⟨label, (content.utf8ByteSize + 1) * Word.size, some content⟩

/-- The code of a function. It begins with the entry label and ends by storing the result at the
frame pointer. -/
structure CodeChunk where
  frame : Frame
  stmts : List Ir.Stmt
  entry : Label
  exit : Label

structure Chunks where
  data : List DataChunk
  code : List CodeChunk

def Node.data (l : Layout) (c : Code) : Node → Except CompileError (Option DataChunk)
  | .decl d@(.typed _ .variable ..) => do
    match ← l.access d with
    | .absolute label size => return some (.zeros label size)
    | .relative .. => return none
  | .expr (.lit mark (.str _)) => do
    let (label, content) ← orFault c.strings[mark.id]? (.noString mark.position)
    return some (.string label content)
  | _ => return none

def Program.data (p : Program) (l : Layout) (c : Code) : Except CompileError (List DataChunk) := do
  let found ← p.walk.mapM fun
    | .enter n => n.data l c
    | .leave _ => return none
  return found.filterMap id

/-- The chunk of a function with the given body. -/
def Frame.chunk (f : Frame) (body : Ir.Expr) : Fresh CodeChunk := do
  let entry ← Fresh.label
  let exit ← Fresh.label
  let code ← (Ir.Stmt.move (.temp f.rv) body).flatten
  let store ← (Ir.Stmt.move (.mem (.temp f.fp)) (.temp f.rv)).flatten
  return ⟨f, .label entry :: (code ++ store), entry, exit⟩

/-- The chunks of functions, those in the body of another before it. -/
def Program.chunkCode (p : Program) (l : Layout) (c : Code) : Fresh (List CodeChunk) :=
  p.bodies.mapM fun (d, _) => do
    let f ← liftM (l.frame d)
    let body ← liftM (c.body d)
    f.chunk body

def Program.chunks (p : Program) (l : Layout) (c : Code) (s : Supply) :
    Except CompileError (Chunks × Supply) := do
  let data ← p.data l c
  match (p.chunkCode l c).run.run s with
  | (.ok code, s) => return (⟨data, code⟩, s)
  | (.error e, _) => throw e

end MmixCompiler
