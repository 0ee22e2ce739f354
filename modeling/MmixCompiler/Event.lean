import MmixCompiler.Register.Allocation
import MmixCompiler.Tree.Parser

/-! What a compilation tells about its progress. -/

namespace MmixCompiler

inductive Level where
  | debug | trace
deriving DecidableEq

def Level.text : Level → String
  | .debug => "DEBUG"
  | .trace => "TRACE"

inductive Event where
  | rule (rule : Rule) (position : Position)
  | declarations (count : Nat)
  | bindings (count : Nat)
  | typeExprs (count : Nat)
  | exprs (count : Nat)
  | places (count : Nat)
  | frame (name : String) (frame : Frame)
  | body (name : String) (label : Label) (code : Ir.Expr)
  | chunk (name : String) (label : Label) (stmts : Nat)
  | chunks (data code : Nat)
  | instructions (label : Label) (count : Nat)
  | allocation (label : Label) (event : AllocationEvent)

namespace Event

def level : Event → Level
  | .rule .. | .allocation _ (.liveness _) | .allocation _ (.candidate ..)
  | .allocation _ (.spill ..) => .trace
  | _ => .debug

def message : Event → String
  | .rule r position => "[" ++ r.text ++ "] position: " ++ position.text
  | .declarations count => "[syntax] " ++ toString count ++ " top-level declarations"
  | .bindings count => "[names] " ++ toString count ++ " bindings"
  | .typeExprs count => "[types] " ++ toString count ++ " type expressions resolved"
  | .exprs count => "[types] " ++ toString count ++ " expressions typed"
  | .places count => "[semantic] " ++ toString count ++ " addressable expressions"
  | .frame name f =>
    "[frames] " ++ name ++ " (" ++ f.label.text ++ "): depth=" ++ toString f.depth ++ " locs=" ++
      toString f.locals ++ " args=" ++ toString f.args ++ " size=" ++ toString f.size
  | .body name label code => "[imc] " ++ name ++ " (" ++ label.text ++ "): " ++ code.text
  | .chunk name label stmts =>
    "[chunks] " ++ name ++ " (" ++ label.text ++ "): " ++ toString stmts ++ " statements"
  | .chunks data code =>
    "[chunks] " ++ toString data ++ " data chunks, " ++ toString code ++ " code chunks"
  | .instructions label count => "[asm] " ++ label.text ++ ": " ++ toString count ++ " instructions"
  | .allocation _ (.liveness rounds) =>
    "[liveness] fixed point after " ++ toString rounds ++ " rounds"
  | .allocation _ (.candidate temp degree) =>
    "[regalloc] " ++ temp.text ++ " may spill (degree " ++ toString degree ++ ")"
  | .allocation label (.spill temp distance) =>
    "[regalloc] " ++ label.text ++ ": spill " ++ temp.text ++ " to FP-" ++ toString distance
  | .allocation label (.done temps rounds spilled) =>
    "[regalloc] " ++ label.text ++ ": " ++ toString temps ++ " temps in " ++ toString rounds ++
      " rounds, " ++ toString spilled ++ " bytes spilled"

def text (e : Event) : String := e.level.text ++ " " ++ e.message

def visible (e : Event) : Level → Bool
  | .trace => true
  | .debug => e.level = .debug

end Event
end MmixCompiler
