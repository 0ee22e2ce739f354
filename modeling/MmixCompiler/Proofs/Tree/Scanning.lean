import MmixCompiler.Proofs.Tree.Parsing

/-! What one attempt at a token takes and gives: every token but the end of the text has characters, and
integers fit words. -/

namespace MmixCompiler.Token

variable {cs : List Char} {n : Nat}

theorem length_scanDigits (value : Nat) (cs : List Char) : (scanDigits value cs).rest.length ≤ cs.length := by
  fun_induction scanDigits value cs with
  | case1 => simp
  | case2 _ c cs _ _ _ r ih => exact Nat.le_succ_of_le ih
  | case3 | case4 => simp

theorem length_scanString (value cs : List Char) : (scanString value cs).rest.length ≤ cs.length := by
  fun_induction scanString value cs <;> simp_all +zetaDelta <;> omega

theorem length_scanClosing (taken : List Char) (c : Char) (cs : List Char) :
    (scanClosing taken c cs).rest.length ≤ cs.length := by
  fun_cases scanClosing taken c cs <;> simp

theorem length_scanCharacter (cs : List Char) : (scanCharacter cs).rest.length ≤ cs.length := by
  fun_cases scanCharacter cs <;> simp only [List.length_cons, List.length_nil, Nat.le_refl]
  all_goals grind [length_scanClosing]

theorem length_scanRelation (c : Char) (cs : List Char) : (scanRelation c cs).rest.length ≤ cs.length := by
  fun_cases scanRelation c cs <;> simp

theorem length_scan {kind : Kind} (h : (scan cs).outcome = .ok kind)
    (hne : kind ≠ .eos) : (scan cs).rest.length < cs.length := by
  rcases cs with _ | ⟨c, cs⟩
  · exact absurd (Except.ok.inj h).symm hne
  · rw [List.length_cons, Nat.lt_succ_iff]
    simp only [scan] at h ⊢
    split_ifs at h ⊢ with hdigit hname
    · simp only [scanDigits, hdigit, if_true] at h ⊢
      split_ifs at h ⊢
      exact length_scanDigits _ cs
    · have hpart : isNamePart c := by simp [isNamePart, hname]
      simpa [scanName, List.dropWhile_cons_of_pos hpart] using (List.dropWhile_sublist isNamePart).length_le
    · exact length_scanRelation c cs
    · exact length_scanCharacter cs
    · exact length_scanString [] cs
    · exact Nat.le_refl _

theorem le_greatest_of_scanDigits {value : Nat} (hvalue : (value : Int) ≤ Word.greatest)
    (h : (scanDigits value cs).outcome = .ok (.int n)) : (n : Int) ≤ Word.greatest := by
  fun_induction scanDigits value cs with
  | case1 value => simp_all
  | case2 value c cs _ _ hle r ih => exact ih hle h
  | case3 => cases h
  | case4 => simp_all

theorem scanName_ne_int : (scanName cs).outcome ≠ .ok (.int n) := by
  simp only [scanName]
  split <;> simp

theorem scanRelation_ne_int {c : Char} : (scanRelation c cs).outcome ≠ .ok (.int n) := by
  unfold scanRelation
  split
  · dsimp only
    split_ifs <;> simp
  · simp

theorem scanString_ne_int {value : List Char} : (scanString value cs).outcome ≠ .ok (.int n) := by
  fun_induction scanString value cs <;> simp_all +zetaDelta

theorem scanClosing_ne_int {taken : List Char} {c : Char} : (scanClosing taken c cs).outcome ≠ .ok (.int n) := by
  fun_cases scanClosing taken c cs <;> simp

theorem scanCharacter_ne_int : (scanCharacter cs).outcome ≠ .ok (.int n) := by
  fun_cases scanCharacter cs <;> simp [scanClosing_ne_int]

theorem le_greatest_of_scan (h : (scan cs).outcome = .ok (.int n)) : (n : Int) ≤ Word.greatest := by
  unfold scan at h
  split at h
  · cases h
  · split_ifs at h
    · exact le_greatest_of_scanDigits (by decide) h
    · exact absurd h scanName_ne_int
    · exact absurd h scanRelation_ne_int
    · exact absurd h scanCharacter_ne_int
    · exact absurd h scanString_ne_int
    · cases h

end MmixCompiler.Token
