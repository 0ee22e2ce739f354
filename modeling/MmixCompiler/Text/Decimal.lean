/-! Numbers in decimal digits. -/

namespace MmixCompiler.Text

/-- The number that decimal digits stand for; without any it is zero. -/
def decimal (digits : List Char) : Nat :=
  digits.foldl (fun n c => n * 10 + (c.toNat - '0'.toNat)) 0

end MmixCompiler.Text
