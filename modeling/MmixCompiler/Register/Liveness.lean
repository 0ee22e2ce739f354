import MmixCompiler.Mmix.Instr
import MmixCompiler.Register.TempSet

/-! Liveness: which temporaries hold a value that may still be read, before and after each
instruction. The sets are the least ones such that what is live before an instruction is what it
reads and what is live after it and not written by it, and what is live after it is what is live
before its successors. -/

namespace MmixCompiler

open Mmix

structure Liveness where
  ins : Array TempSet
  outs : Array TempSet
deriving DecidableEq

/-- The first label that stands before an earlier place of the same list too. -/
def duplicate? : List Label → List Label → Option Label
  | _, [] => none
  | seen, l :: ls => if l ∈ seen then some l else duplicate? (l :: seen) ls

def labelIndex? (code : List Instr) (l : Label) : Option Nat :=
  code.findIdx? fun i => i.label? = some l

/-- The positions that may follow that of an instruction: the next one and those it jumps to. -/
def Mmix.Instr.successors (code : List Instr) (index : Nat) (i : Instr) :
    Except CompileError (List Nat) := do
  let targets ← i.jumps.mapM fun l =>
    match labelIndex? code l with
    | some target => return target
    | none => throw (.internal (.unknownLabel l))
  return if index + 1 < code.length then (index + 1) :: targets else targets

/-- The successors of each instruction. No label may stand at two places, and every jump must lead
to one. -/
def successors (code : List Instr) : Except CompileError (List (List Nat)) := do
  match duplicate? [] (code.filterMap Instr.label?) with
  | some l => throw (.internal (.duplicateLabel l))
  | none => code.zipIdx.mapM fun (i, index) => i.successors code index

namespace Liveness

def empty (size : Nat) : Liveness := ⟨.replicate size [], .replicate size []⟩

def liveIn (live : Liveness) (index : Nat) : TempSet := live.ins.getD index []

def liveOut (live : Liveness) (index : Nat) : TempSet := live.outs.getD index []

/-- Makes the sets of one instruction agree with those of its successors. -/
def update (live : Liveness) (index : Nat) (i : Instr) (next : List Nat) : Liveness :=
  let out := next.foldl (fun set s => TempSet.union set (live.liveIn s)) []
  let kept := out.filter fun t => t ∉ i.defs
  ⟨live.ins.setIfInBounds index (TempSet.union (.ofList i.uses) kept),
    live.outs.setIfInBounds index out⟩

/-- One round over all instructions, the last first. -/
def sweep (code : List ((Instr × List Nat) × Nat)) (live : Liveness) : Liveness :=
  code.foldr (fun ((i, next), index) live => live.update index i next) live

def sizes (live : Liveness) : List Nat × List Nat :=
  (live.ins.toList.map List.length, live.outs.toList.map List.length)

/-- Rounds until one leaves every set as large as it was, and their number. -/
def iterate (code : List ((Instr × List Nat) × Nat)) : Nat → Nat → Liveness → Liveness × Nat
  | 0, rounds, live => (live, rounds)
  | bound + 1, rounds, live =>
    let next := live.sweep code
    if next.sizes = live.sizes then (next, rounds + 1) else iterate code bound (rounds + 1) next

/-- Every round but the last makes a set larger, and no set holds more temporaries than the
instructions read. -/
def bound (code : List Instr) : Nat :=
  2 * code.length * (code.flatMap Instr.uses).length + 1

end Liveness

/-- The liveness of code, and the number of rounds that finding it took. -/
def liveness (code : List Instr) : Except CompileError (Liveness × Nat) := do
  let next ← successors code
  return Liveness.iterate (code.zip next).zipIdx (Liveness.bound code) 0 (.empty code.length)

end MmixCompiler
