import MmixCompiler.Mmix.Select

/-! The assembler's text of a program: registers, output buffer, runtime, data and functions, each at
an address of its own. -/

namespace MmixCompiler

open Mmix

namespace Mmix

structure Row where
  label : String := ""
  opcode : String
  operands : String := ""
deriving DecidableEq

/-- The label fills sixteen columns, and tabs divide. -/
def Row.text (r : Row) : String :=
  r.label ++ String.ofList (List.replicate (16 - r.label.length) ' ') ++ "\t" ++ r.opcode ++ "\t" ++
    r.operands ++ "\n"

def sectionText (rows : List Row) : String := String.join (rows.map Row.text) ++ "\n"

inductive Item where
  | label (label : Label)
  | op (opcode operands : String)
deriving DecidableEq

def Item.ofOp (op : Op) : Item := .op op.opcode op.operands

/-- An operation takes the label before it; a label that is followed by another stands at an
operation that does nothing. -/
def Item.rows : Option Label → List Item → List Row
  | none, [] => []
  | some l, [] => [⟨l.text, "SWYM", ""⟩]
  | none, .label l :: items => Item.rows (some l) items
  | some l, .label l' :: items => ⟨l.text, "SWYM", ""⟩ :: Item.rows (some l') items
  | none, .op opcode operands :: items => ⟨"", opcode, operands⟩ :: Item.rows none items
  | some l, .op opcode operands :: items => ⟨l.text, opcode, operands⟩ :: Item.rows none items

/-- Splits an instruction's text at the first space. -/
def Item.ofText (s : String) : Item :=
  .op (.ofList (s.toList.takeWhile (· ≠ ' '))) (.ofList ((s.toList.dropWhile (· ≠ ' ')).drop 1))

def registerRows : List Row :=
  ⟨"", "LOC", "#0"⟩ :: List.replicate 3 ⟨"", "GREG", "0"⟩

def outputRows : List Row :=
  [⟨"", "LOC", "#20000000"⟩, ⟨"", "GREG", "@"⟩, ⟨"OutData", "BYTE", "0"⟩]

/-- The functions that every program may call: one writes a character, one takes memory from the
heap, and one gives it back. -/
def runtimeRows (kept : Nat) : List Row :=
  let pop := toString kept ++ ",0"
  [⟨"", "LOC", "#30000000"⟩, ⟨"", "GREG", "@"⟩,
    ⟨"_putChar", "LDO", "$0,$254,8"⟩,
    ⟨"", "LDA", "$1,OutData"⟩,
    ⟨"", "OR", "$255,$1,0"⟩,
    ⟨"", "STB", "$0,$1,0"⟩,
    ⟨"", "ADD", "$1,$1,1"⟩,
    ⟨"", "SETL", "$0,0"⟩,
    ⟨"", "STB", "$0,$1,0"⟩,
    ⟨"", "TRAP", "0,Fputs,StdOut"⟩,
    ⟨"", "POP", pop⟩,
    ⟨"_new", "LDO", "$0,$254,8"⟩,
    ⟨"", "STO", "$252,$254,0"⟩,
    ⟨"", "ADD", "$252,$252,$0"⟩,
    ⟨"", "POP", pop⟩,
    ⟨"_del", "POP", pop⟩]

/-- Sets the stack, frame and heap pointers and calls the main function. -/
def startRows (kept : Nat) : List Row :=
  [⟨"", "LOC", "#40000000"⟩,
    ⟨"Main", "SETH", "$254,#3000"⟩,
    ⟨"", "SETH", "$253,#3000"⟩,
    ⟨"", "SETH", "$252,#2000"⟩,
    ⟨"", "PUSHJ", "$" ++ toString kept ++ ",_main"⟩,
    ⟨"", "TRAP", "0,Halt,0"⟩]

end Mmix

def DataChunk.words (d : DataChunk) : List Nat :=
  match d.init with
  | none => List.replicate (d.size.tdiv Word.size).toNat 0
  | some content => (content.toUTF8.toList.map UInt8.toNat) ++ [0]

/-- The rows of a region of data: its label stands at the first word. -/
def DataChunk.rows (d : DataChunk) : List Row :=
  match d.words with
  | [] => []
  | w :: ws => ⟨d.label.text, "OCTA", toString w⟩ :: ws.map fun w => ⟨"", "OCTA", toString w⟩

def dataRows (data : List DataChunk) : List Row :=
  ⟨"", "LOC", "#10000000"⟩ :: ⟨"", "GREG", "@"⟩ :: data.flatMap DataChunk.rows

namespace Routine

def stackBytes (r : Routine) : Int := r.frame.size + r.spilled

/-- Saves the frame pointer and the return address below the locals, and makes the frame. -/
def prologue (r : Routine) : List Op :=
  loadConst (.hard 0) (r.frame.locals + Word.size) ++
  [.alu .sub (.hard 0) .sp (.reg (.hard 0)),
    .store .fp (.hard 0) (.imm 0),
    .alu .sub (.hard 0) (.hard 0) (.imm 8),
    .get (.hard 1) .returnAddress,
    .store (.hard 1) (.hard 0) (.imm 0),
    .alu .or .fp .sp (.imm 0)] ++
  loadConst (.hard 0) r.stackBytes ++
  [.alu .sub .sp .sp (.reg (.hard 0)),
    .jump r.entry]

def epilogue (kept : Nat) (r : Routine) : List Op :=
  loadConst (.hard 0) (r.frame.locals + Word.size) ++
  [.alu .sub (.hard 0) .fp (.reg (.hard 0)),
    .alu .sub (.hard 1) (.hard 0) (.imm 8),
    .load (.hard 1) (.hard 1) (.imm 0),
    .put .returnAddress (.hard 1),
    .alu .or .sp .fp (.imm 0),
    .load .fp (.hard 0) (.imm 0),
    .ret kept]

def item (fp : Temp) (regs : Registers) : Instr → Except CompileError Item
  | .label l => return .label l
  | i@(.oper _) => return .ofText (← i.format fp regs)

def rows (kept : Nat) (r : Routine) : Except CompileError (List Row) := do
  match r.registers with
  | none => throw (.internal (.noRegisters r.frame.label))
  | some regs =>
    let body ← r.instrs.mapM (item r.frame.fp regs)
    return Item.rows none (.label r.frame.label :: r.prologue.map .ofOp ++ body ++
      .label r.exit :: (r.epilogue kept).map .ofOp)

end Routine

/-- The listing of a program that keeps its temporaries in the registers below `kept`. -/
def listing (kept : Nat) (data : List DataChunk) (code : List Routine) :
    Except CompileError String := do
  let functions ← code.mapM fun r => return sectionText (← r.rows kept)
  return sectionText registerRows ++ sectionText outputRows ++ sectionText (runtimeRows kept) ++
    sectionText (dataRows data) ++ sectionText (startRows kept) ++ String.join functions

end MmixCompiler
