import MmixCompiler.Command.Files
import MmixCompiler.Command.Options
import MmixCompiler.Compilation

/-! The command: it reads a program, compiles it and writes the listing, and a report if asked for
one. -/

namespace MmixCompiler

inductive CommandError where
  | option (fault : OptionFault)
  | file (fault : FileFault)
  | compile (error : CompileError)
  | report (fault : FileFault)

def CommandError.message : CommandError → String
  | .option fault => "invalid option: " ++ fault.message
  | .file fault => fault.message
  | .compile error => error.message
  | .report fault => "cannot write trace: " ++ fault.message

namespace Command

variable {m : Type → Type} [Monad m] (files : Files m)

abbrev Run (m : Type → Type) := ExceptT CommandError m

def file {α : Type} (x : m (Except FileFault α)) : Run m α := do
  match ← (liftM x : Run m (Except FileFault α)) with
  | .ok a => return a
  | .error e => throw (.file e)

def source (options : Options) : Run m String := do
  let bytes ← file (match options.input with
    | some path => files.read path
    | none => files.input)
  match String.fromUTF8? bytes with
  | some src => return src
  | none => throw (.file .notText)

def blockSize : Nat := 8192

/-- Writes a report. One that fits in a block is written as the file is closed, and a failure then
goes unnoticed. -/
def writeReport (path text : String) : Run m Unit := do
  file (files.create path)
  match ← (liftM (files.append path text) : Run m (Except FileFault Unit)) with
  | .ok () => return
  | .error e => if text.utf8ByteSize ≤ blockSize then return else throw (.report e)

def writeListing (path text : String) : Run m Unit := do
  file (files.create path)
  file (files.append path text)

/-- Runs the command. What it gives is for the standard output. -/
def run (args : List String) : Run m String := do
  let options ← liftM ((Options.ofArgs args).mapError CommandError.option)
  let src ← source files options
  let compilation ← liftM ((compile src options.registers).1.mapError CommandError.compile)
  match options.report with
  | some path => writeReport files path compilation.report.text
  | none => pure ()
  match options.output with
  | some path =>
    writeListing files path compilation.listing
    return ""
  | none => return compilation.listing

end Command
end MmixCompiler
