import MmixCompiler.Supply
import MmixCompiler.Tree.Basic
import MmixCompiler.Word
import Std.Data.TreeMap

/-! Stack frames. The stack grows downwards. From the frame pointer upwards a frame has the static
link, where the result is left, and the arguments; below it the locals, the saved frame pointer and
return address, the spilled temporaries, and at the stack pointer the arguments of calls. -/

namespace MmixCompiler

/-- The frame of a function. A top-level function has depth 1, and a function declared in the body of
another one more than that. -/
structure Frame where
  label : Label
  depth : Nat
  /-- Bytes of local variables. -/
  locals : Int
  /-- Bytes for the arguments of calls. -/
  args : Int
  /-- The temporary that stands for the frame pointer. -/
  fp : Temp
  /-- The temporary that takes the result. -/
  rv : Temp
deriving DecidableEq

namespace Frame

/-- Bytes of the saved frame pointer and return address. -/
def overhead : Int := 2 * Word.size

def size (f : Frame) : Int := f.locals + f.args + overhead

def make (label : Label) (depth : Nat) (locals args : Int) (s : Supply) : Frame × Supply :=
  let (fp, s) := s.temp
  let (rv, s) := s.temp
  (⟨label, depth, locals, args, fp, rv⟩, s)

end Frame

inductive Access where
  | absolute (label : Label) (size : Int)
  /-- At an offset from the frame pointer of the function at that depth. -/
  | relative (offset : Int) (depth : Nat) (size : Int)
deriving DecidableEq

def Access.size : Access → Int
  | .absolute _ size | .relative _ _ size => size

/-- Frames of functions and places of variables, by the numbers of their declarations. -/
structure Layout where
  frames : Std.TreeMap NodeId Frame := ∅
  accesses : Std.TreeMap NodeId Access := ∅

end MmixCompiler
