import MmixCompiler.Mmix.Select
import MmixCompiler.Register.Coloring

/-! Register allocation. Temporaries that find no register move to the frame, and allocation begins
again with the changed code. -/

namespace MmixCompiler

open Mmix Fresh

/-- The address of a spilled temporary: a distance below the frame pointer. -/
def slotAddress (fp : Temp) (distance : Int) : Fresh (Temp × List Op) := do
  let a ← temp
  return (a, loadConst (.temp a) distance ++
    [.alu .sub (.temp a) (.temp fp) (.reg (.temp a))])

def rename (old new : Temp) (ts : List Temp) : List Temp :=
  ts.map fun t => if t = old then new else t

/-- An instruction with a temporary moved to the frame: it is loaded before each use, and stored after
each definition. -/
def Mmix.Instr.spill (old fp : Temp) (distance : Int) : Instr → Fresh (List Instr)
  | .label l => return [.label l]
  | .oper o =>
    if old ∈ o.uses ∨ old ∈ o.defs then do
      let new ← temp
      let before ←
        if old ∈ o.uses then do
          let (a, ops) ← slotAddress fp distance
          pure (ops ++ [.load (.temp new) (.temp a) (.imm 0)])
        else pure []
      let after ←
        if old ∈ o.defs then do
          let (a, ops) ← slotAddress fp distance
          pure (ops ++ [.store (.temp new) (.temp a) (.imm 0)])
        else pure []
      let o := { o with uses := rename old new o.uses, defs := rename old new o.defs }
      return before.map Op.instr ++ .oper o :: after.map Op.instr
    else return [.oper o]

namespace Routine

/-- How far below the frame pointer the last spilled temporary is. -/
def lastSlot (r : Routine) : Int := r.frame.locals + Frame.overhead + r.spilled

def spill (r : Routine) (t : Temp) : Fresh Routine := do
  let r := { r with spilled := r.spilled + Word.size }
  let instrs ← r.instrs.mapM (Instr.spill t r.frame.fp r.lastSlot)
  return { r with instrs := instrs.flatten }

end Routine

inductive AllocationEvent where
  | liveness (rounds : Nat)
  | candidate (temp : Temp) (degree : Nat)
  | spill (temp : Temp) (distance : Int)
  | done (temps rounds : Nat) (spilled : Int)

namespace Routine

def spillAll (r : Routine) : List Temp → Fresh (Routine × List AllocationEvent)
  | [] => return (r, [])
  | t :: ts => do
    let r ← r.spill t
    let (r', events) ← r.spillAll ts
    return (r', .spill t r.lastSlot :: events)

/-- A routine with registers, and how it came to them. -/
structure Allocated where
  routine : Routine
  liveness : Liveness
  events : List AllocationEvent

def rounds (registers : Nat) : Nat → Nat → Routine → Fresh Allocated
  | 0, _, r => fail (.noAssignment r.frame.label)
  | bound + 1, count, r => do
    let (live, passes) ← liftM (liveness r.instrs)
    let graph := Interference.ofCode r.instrs live r.frame.fp
    let coloring := graph.color registers
    let events := .liveness passes :: coloring.candidates.map fun e => .candidate e.1 e.2
    match coloring.registers? with
    | some colors =>
      match graph.conflict? colors with
      | some (a, b) => fail (.sharedRegister a b)
      | none =>
        return ⟨{ r with registers := some colors }, live,
          events ++ [.done colors.size (count + 1) r.spilled]⟩
    | none =>
      let (r, spills) ← r.spillAll coloring.spills
      let result ← rounds registers bound (count + 1) r
      return { result with events := events ++ spills ++ result.events }

/-- Far more rounds than allocation takes. -/
def roundBound (r : Routine) : Nat := 1 <<< (r.instrs.length + 16)

/-- Gives every temporary of a routine one of the registers below a number. -/
def allocate (registers : Nat) (r : Routine) : Fresh Allocated :=
  rounds registers r.roundBound 0 r

end Routine
end MmixCompiler
