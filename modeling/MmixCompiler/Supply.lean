/-! Temporaries and labels, and the supply of fresh ones that all phases of a compilation share. -/

namespace MmixCompiler

/-- A virtual register. Temporaries are numbered in the order of their creation. -/
abbrev Temp := Nat

def Temp.text (t : Temp) : String := "T" ++ toString (t : Nat)

/-- A name for a place in code or data: that of something declared, or a fresh one. -/
inductive Label where
  | named (name : String)
  | fresh (number : Nat)
deriving DecidableEq, Inhabited

def Label.text : Label → String
  | .named name => "_" ++ name
  | .fresh number => "L" ++ toString number

/-- The numbers of the next temporary and the next fresh label. -/
structure Supply where
  temps : Nat := 0
  labels : Nat := 0
deriving DecidableEq, Inhabited

namespace Supply

def temp (s : Supply) : Temp × Supply := (s.temps, { s with temps := s.temps + 1 })

def label (s : Supply) : Label × Supply := (.fresh s.labels, { s with labels := s.labels + 1 })

end Supply
end MmixCompiler
