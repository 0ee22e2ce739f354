/-! Places in a source text. A place is reached by walking over the characters before it, so the
place after a list of characters is a fold. -/

namespace MmixCompiler

/-- A line and a character within that line, both counted from zero. -/
structure Position where
  line : Nat := 0
  column : Nat := 0
deriving DecidableEq, Inhabited

namespace Position

def next (p : Position) (c : Char) : Position :=
  if c = '\n' then ⟨p.line + 1, 0⟩ else ⟨p.line, p.column + 1⟩

def after (p : Position) (cs : List Char) : Position :=
  cs.foldl next p

def text (p : Position) : String :=
  "line:" ++ toString p.line ++ ":" ++ toString p.column

@[simp] theorem after_nil (p : Position) : p.after [] = p := rfl

@[simp] theorem after_cons (p : Position) (c : Char) (cs : List Char) :
    p.after (c :: cs) = (p.next c).after cs := rfl

theorem after_append (p : Position) (cs ds : List Char) :
    p.after (cs ++ ds) = (p.after cs).after ds := by
  simp [after, List.foldl_append]

end Position
end MmixCompiler
