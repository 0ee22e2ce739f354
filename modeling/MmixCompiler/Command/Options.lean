import MmixCompiler.Text.Decimal

/-! The options of the command. An option's value follows it, or stands after an equals sign; that of
`-o` may also follow directly. After `--` there are only inputs. -/

namespace MmixCompiler

/-- What the command is asked to do. Without an input it reads the standard one, and without an output
it writes to the standard one. -/
structure Options where
  input : Option String := none
  output : Option String := none
  report : Option String := none
  registers : Nat := 8
deriving DecidableEq

inductive OptionFault where
  | unknown (arg : String)
  | missingValue (name : String)
  | repeated (name : String)
  | secondInput (arg : String)
  | registers (value : String)
deriving DecidableEq

def OptionFault.message : OptionFault → String
  | .unknown arg => "`" ++ arg ++ "` is not an option"
  | .missingValue name => "`" ++ name ++ "` needs a value"
  | .repeated name => "`" ++ name ++ "` is given twice"
  | .secondInput arg => "`" ++ arg ++ "` is a second input"
  | .registers value => "`--registers` must be between 2 and 200, got `" ++ value ++ "`"

namespace Options

inductive Name where
  | output | trace | registers
deriving DecidableEq

def Name.text : Name → String
  | .output => "--output"
  | .trace => "--trace"
  | .registers => "--registers"

def Name.ofText? (s : String) : Option Name :=
  if s = "output" then some .output
  else if s = "trace" then some .trace
  else if s = "registers" then some .registers
  else none

/-- What an argument is by itself. -/
inductive Arg where
  /-- An input, or the value of the option before it. -/
  | plain (s : String)
  | option (name : Name) (value : Option String)
  | rest
  | unknown

/-- A value as it stands behind the name of an option. -/
def attached (cs : List Char) : String := .ofList (cs.dropWhile (· = '='))

def Arg.ofString (s : String) : Arg :=
  match s.toList with
  | ['-', '-'] => .rest
  | '-' :: '-' :: cs =>
    let body := cs.dropWhile (· = '-')
    match Name.ofText? (.ofList (body.takeWhile (· ≠ '='))), body.dropWhile (· ≠ '=') with
    | some name, [] => .option name none
    | some name, value => .option name (some (attached value))
    | none, _ => .unknown
  | '-' :: 'o' :: [] => .option .output none
  | '-' :: 'o' :: value => .option .output (some (attached value))
  | '-' :: _ :: _ => .unknown
  | _ => .plain s

structure Given where
  input : Option String := none
  output : Option String := none
  trace : Option String := none
  registers : Option String := none

namespace Given

/-- Enters a value that may be given once. -/
def once (old : Option String) (value : String) (fault : OptionFault) :
    Except OptionFault (Option String) :=
  match old with
  | none => return some value
  | some _ => throw fault

def addInput (g : Given) (value : String) : Except OptionFault Given :=
  return { g with input := ← once g.input value (.secondInput value) }

def add (g : Given) (name : Name) (value : String) : Except OptionFault Given :=
  let fault := .repeated name.text
  match name with
  | .output => return { g with output := ← once g.output value fault }
  | .trace => return { g with trace := ← once g.trace value fault }
  | .registers => return { g with registers := ← once g.registers value fault }

def read : Given → List String → Except OptionFault Given
  | g, [] => return g
  | g, arg :: args =>
    match Arg.ofString arg with
    | .plain s => do read (← g.addInput s) args
    | .rest => args.foldlM addInput g
    | .unknown => throw (.unknown arg)
    | .option name (some value) => do read (← g.add name value) args
    | .option name none =>
      match args with
      | [] => throw (.missingValue name.text)
      | next :: args =>
        match Arg.ofString next with
        | .plain value => do read (← g.add name value) args
        | _ => throw (.missingValue name.text)

end Given

/-- A number in decimal digits, with or without a plus sign before it. -/
def number? (s : String) : Option Nat :=
  let digits := match s.toList with
    | '+' :: cs => cs
    | cs => cs
  if digits.isEmpty ∨ ¬ digits.all Char.isDigit then none
  else some (Text.decimal digits)

def registerCount (value : String) : Except OptionFault Nat :=
  match number? value with
  | some n => if 2 ≤ n ∧ n ≤ 200 then return n else throw (.registers value)
  | none => throw (.registers value)

def ofArgs (args : List String) : Except OptionFault Options := do
  let g ← Given.read {} args
  let count ← match g.registers with
    | some value => registerCount value
    | none => pure 8
  return { input := g.input, output := g.output, report := g.trace, registers := count }

end Options
end MmixCompiler
