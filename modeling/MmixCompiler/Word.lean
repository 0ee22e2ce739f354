/-! Machine words. Values of the compiled language are 64-bit two's complement words of eight
bytes. Sizes, offsets and constants are integers here, with the range checked where it matters. -/

namespace MmixCompiler.Word

def size : Int := 8

def least : Int := -9223372036854775808

def greatest : Int := 9223372036854775807

def Fits (n : Int) : Prop := least ≤ n ∧ n ≤ greatest

instance (n : Int) : Decidable (Fits n) := inferInstanceAs (Decidable (_ ∧ _))

def checked (n : Int) : Option Int := if Fits n then some n else none

/-- The nearest integer that a word can hold. -/
def clamp (n : Int) : Int := if n < least then least else if greatest < n then greatest else n

theorem checked_eq_some_iff {n m : Int} : checked n = some m ↔ Fits n ∧ n = m := by
  simp [checked]

theorem clamp_of_fits {n : Int} (h : Fits n) : clamp n = n := by
  simp [clamp, Int.not_lt.mpr h.1, Int.not_lt.mpr h.2]

end MmixCompiler.Word
