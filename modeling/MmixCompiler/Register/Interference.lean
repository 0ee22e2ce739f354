import MmixCompiler.Register.Liveness

/-! Interference. Two temporaries interfere if they are live at the same time, or if one is written
while the other stays live. The frame pointer has a register of its own and is left out. -/

namespace MmixCompiler

open Mmix

structure Interference where
  adjacent : Std.TreeMap Temp TempSet := ∅

namespace Interference

def nodes (g : Interference) : List Temp := g.adjacent.keys

def neighbours (g : Interference) (t : Temp) : TempSet := g.adjacent.getD t []

def degree (g : Interference) (t : Temp) : Nat := (g.neighbours t).length

def interferes (g : Interference) (a b : Temp) : Bool := (g.neighbours a).contains b

/-- Makes a temporary a neighbour of others; it is a node even if there are none. -/
def join (g : Interference) (t : Temp) (others : TempSet) : Interference :=
  ⟨g.adjacent.insert t (TempSet.union (g.neighbours t) (others.filter (· ≠ t)))⟩

def clique (g : Interference) (set : TempSet) : Interference :=
  set.foldl (fun g t => g.join t set) g

def star (g : Interference) (t : Temp) (others : TempSet) : Interference :=
  others.foldl (fun g u => g.join u [t]) (g.join t others)

def ofCode (code : List Instr) (live : Liveness) (fp : Temp) : Interference :=
  let rest (ts : List Temp) : List Temp := ts.filter (· ≠ fp)
  let g := code.foldl (fun g i => (rest (i.uses ++ i.defs)).foldl (fun g t => g.join t []) g) {}
  let g := (live.ins.toList ++ live.outs.toList).foldl (fun g set => g.clique (rest set)) g
  (code.zip live.outs.toList).foldl
    (fun g (i, out) => (rest i.defs).foldl (fun g t => g.star t (rest out)) g) g

end Interference
end MmixCompiler
