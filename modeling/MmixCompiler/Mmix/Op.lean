import MmixCompiler.Supply
import MmixCompiler.Word

/-! The operations of the machine that code is made of. Code that is waiting for registers names
temporaries; the machine's own registers are named by number. -/

namespace MmixCompiler.Mmix

/-- An operand: a temporary, or a register of the machine. -/
inductive Reg where
  | temp (t : Temp)
  | hard (number : Nat)
deriving DecidableEq

namespace Reg

/-- The stack pointer. -/
def sp : Reg := .hard 254

/-- The frame pointer. -/
def fp : Reg := .hard 253

/-- The heap pointer. -/
def hp : Reg := .hard 252

def temp? : Reg → Option Temp
  | .temp t => some t
  | .hard _ => none

end Reg

/-- The last operand of an operation: a register or a small constant. -/
inductive Value where
  | reg (r : Reg)
  | imm (n : Nat)
deriving DecidableEq

/-- Operations on two words. `cmp` gives -1, 0 or 1. -/
inductive Alu where
  | or | xor | and | add | sub | mul | div | cmp
deriving DecidableEq

/-- The sixteen-bit parts of a word above the lowest. -/
inductive Part where
  | mediumLow | mediumHigh | high
deriving DecidableEq

def Part.shift : Part → Nat
  | .mediumLow => 16
  | .mediumHigh => 32
  | .high => 48

inductive Sign where
  | zero | nonzero | negative | positive | nonpositive | nonnegative
deriving DecidableEq

/-- Special registers: the remainder of the last division, and the return address. -/
inductive Special where
  | remainder | returnAddress
deriving DecidableEq

inductive Op where
  /-- Sets the lowest part of a register and clears the others. -/
  | set (dst : Reg) (wyde : Nat)
  /-- Adds to a part of a register. -/
  | inc (part : Part) (dst : Reg) (wyde : Nat)
  /-- Subtracts from a small constant. -/
  | neg (dst : Reg) (minuend : Nat) (src : Reg)
  | alu (op : Alu) (dst lhs : Reg) (rhs : Value)
  /-- Sets a register to 1 if a word passes a test, and to 0 otherwise. -/
  | test (sign : Sign) (dst src : Reg)
  | get (dst : Reg) (special : Special)
  | put (special : Special) (src : Reg)
  | address (dst : Reg) (label : Label)
  | load (dst base : Reg) (offset : Value)
  | store (src base : Reg) (offset : Value)
  /-- Goes to `yes` if a word is not zero; what follows has the label `no`. -/
  | branch (src : Reg) (yes no : Label)
  | jump (label : Label)
  /-- Calls, with the registers below `kept` saved. -/
  | call (kept : Nat) (label : Label)
  | ret (kept : Nat)
deriving DecidableEq

def Alu.text : Alu → String
  | .or => "OR"
  | .xor => "XOR"
  | .and => "AND"
  | .add => "ADD"
  | .sub => "SUB"
  | .mul => "MUL"
  | .div => "DIV"
  | .cmp => "CMP"

def Part.text : Part → String
  | .mediumLow => "INCML"
  | .mediumHigh => "INCMH"
  | .high => "INCH"

def Sign.text : Sign → String
  | .zero => "ZSZ"
  | .nonzero => "ZSNZ"
  | .negative => "ZSN"
  | .positive => "ZSP"
  | .nonpositive => "ZSNP"
  | .nonnegative => "ZSNN"

def Special.text : Special → String
  | .remainder => "rR"
  | .returnAddress => "rJ"

namespace Op

def opcode : Op → String
  | .set .. => "SETL"
  | .inc part .. => part.text
  | .neg .. => "NEG"
  | .alu op .. => op.text
  | .test sign .. => sign.text
  | .get .. => "GET"
  | .put .. => "PUT"
  | .address .. => "LDA"
  | .load .. => "LDO"
  | .store .. => "STO"
  | .branch .. => "BNZ"
  | .jump .. => "JMP"
  | .call .. => "PUSHJ"
  | .ret .. => "POP"

inductive Arg where
  | dst (r : Reg)
  | src (r : Reg)
  | text (s : String)

def Arg.ofValue : Value → Arg
  | .reg r => .src r
  | .imm n => .text (toString n)

def args : Op → List Arg
  | .set dst wyde | .inc _ dst wyde => [.dst dst, .text (toString wyde)]
  | .neg dst minuend src => [.dst dst, .text (toString minuend), .src src]
  | .alu _ dst lhs rhs => [.dst dst, .src lhs, .ofValue rhs]
  | .test _ dst src => [.dst dst, .src src, .text "1"]
  | .get dst special => [.dst dst, .text special.text]
  | .put special src => [.text special.text, .src src]
  | .address dst label => [.dst dst, .text label.text]
  | .load dst base offset => [.dst dst, .src base, .ofValue offset]
  | .store src base offset => [.src src, .src base, .ofValue offset]
  | .branch src yes _ => [.src src, .text yes.text]
  | .jump label => [.text label.text]
  | .call kept label => [.text ("$" ++ toString kept), .text label.text]
  | .ret kept => [.text (toString kept), .text "0"]

/-- The temporaries that an operation reads. Adding to a part of a register reads it. -/
def uses : Op → List Temp
  | .inc _ dst _ => dst.temp?.toList
  | op => op.args.filterMap fun
    | .src r => r.temp?
    | _ => none

def defs (op : Op) : List Temp :=
  op.args.filterMap fun
    | .dst r => r.temp?
    | _ => none

def jumps : Op → List Label
  | .branch _ yes no => [no, yes]
  | .jump label => [label]
  | _ => []

/-- Operands with the temporaries left open: those written are numbered apart from those read. -/
def openArgs (written read : Nat) : List Arg → List String
  | [] => []
  | .dst (.temp _) :: args => ("`d" ++ toString written) :: openArgs (written + 1) read args
  | .src (.temp _) :: args => ("`s" ++ toString read) :: openArgs written (read + 1) args
  | .dst (.hard n) :: args | .src (.hard n) :: args =>
    ("$" ++ toString n) :: openArgs written read args
  | .text s :: args => s :: openArgs written read args

def operands (op : Op) : String := ",".intercalate (openArgs 0 0 op.args)

end Op

/-- The sixteen bits of a number from a position on. -/
def wyde (n shift : Nat) : Nat := (n >>> shift) % 65536

/-- Loads a constant, part by part; a negative one is negated last. -/
def loadConst (dst : Reg) (value : Int) : List Op :=
  let n := value.natAbs
  [.set dst (wyde n 0), .inc .mediumLow dst (wyde n 16), .inc .mediumHigh dst (wyde n 32),
    .inc .high dst (wyde n 48)] ++ if value < 0 then [.neg dst 0 dst] else []

end MmixCompiler.Mmix
