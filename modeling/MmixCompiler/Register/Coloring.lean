import MmixCompiler.Register.Worklist

/-! Choosing registers by colouring. Temporaries take the lowest register that no neighbour has, the
last that was put on the stack first. -/

namespace MmixCompiler

open Mmix

namespace Interference

/-- The lowest register that no neighbour has. If there are more registers than neighbours that have
one, it is among the first of them, one more than these neighbours. -/
def free? (g : Interference) (registers : Nat) (colors : Registers) (t : Temp) : Option Nat :=
  let taken := (g.neighbours t).filterMap fun u => colors[u]?
  (List.range (min registers (taken.length + 1))).find? fun r => !taken.contains r

/-- Registers for temporaries in the given order, and those that get none. -/
def assign (g : Interference) (registers : Nat) : List Temp → Registers → Registers × List Temp
  | [], colors => (colors, [])
  | t :: ts, colors =>
    match g.free? registers colors t with
    | some r => g.assign registers ts (colors.insert t r)
    | none =>
      let (colors, spills) := g.assign registers ts colors
      (colors, t :: spills)

end Interference

structure Coloring where
  colors : Registers
  /-- Temporaries without a register, in increasing order. -/
  spills : TempSet
  /-- Temporaries that had too many neighbours when they were put on the stack, with their number. -/
  candidates : List (Temp × Nat)

/-- All temporaries in the order in which they take registers. -/
def Interference.stack (g : Interference) (registers : Nat) : Degrees := (Worklist.ofGraph g).run g registers

def Interference.color (g : Interference) (registers : Nat) : Coloring :=
  let stack := g.stack registers
  let (colors, spills) := g.assign registers (stack.map Prod.fst) ∅
  ⟨colors, .ofList spills, stack.reverse.filter fun e => registers ≤ e.2⟩

def Coloring.registers? (c : Coloring) : Option Registers :=
  if c.spills.isEmpty then some c.colors else none

def Interference.conflict? (g : Interference) (colors : Registers) : Option (Temp × Temp) :=
  g.nodes.findSome? fun a =>
    ((g.neighbours a).find? fun b => colors[a]? = colors[b]?).map (a, ·)

end MmixCompiler
