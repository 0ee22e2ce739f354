import MmixCompiler.Fresh
import MmixCompiler.Proofs.Run

/-! What computations over a supply take from it. -/

namespace MmixCompiler.Fresh

variable {α : Type} {s s' : Supply}

@[simp] theorem gives_temp {t : Temp} : Gives temp s t s' ↔ s.temps = t ∧ ⟨s.temps + 1, s.labels⟩ = s' := by
  change (Except.ok s.temps, _) = (.ok t, s') ↔ _
  simp

@[simp] theorem gives_label {l : Label} : Gives label s l s' ↔ .fresh s.labels = l ∧ ⟨s.temps, s.labels + 1⟩ = s' := by
  change (Except.ok (Label.fresh s.labels), _) = (.ok l, s') ↔ _
  simp

@[simp] theorem not_gives_fail {f : InternalFault} {a : α} : ¬ Gives (fail f) s a s' := by
  change ¬ (Except.error _, s) = (.ok a, s')
  simp

end MmixCompiler.Fresh
