import Mathlib.Algebra.Order.Group.Int
import Mathlib.Tactic.SplitIfs
import MmixCompiler.Proofs.Except
import MmixCompiler.Types.Constant

/-! Constant expressions and their values. Folding divides toward zero; `rounded` divides down, and the
two differ on operands of different signs, unless the division is exact. -/

namespace MmixCompiler

/-- Integer literals fit words. -/
def Expr.WordLiterals : Expr → Prop
  | .lit _ (.int value) => (value : Int) ≤ Word.greatest
  | .unary _ _ operand => operand.WordLiterals
  | .binary _ _ lhs rhs => lhs.WordLiterals ∧ rhs.WordLiterals
  | _ => True

/-- Constant expressions with their values. -/
inductive Expr.Folds : Expr → Int → Prop where
  | lit {mark value} : Folds (.lit mark (.int value)) value
  | plus {mark e v} (h : Folds e v) : Folds (.unary mark .plus e) v
  | minus {mark e v} (h : Folds e v) (hfits : Word.Fits (-v)) : Folds (.unary mark .minus e) (-v)
  | binary {mark op lhs rhs a b} (hop : op.isArithmetic) (hlhs : Folds lhs a) (hrhs : Folds rhs b)
    (hzero : op.isDivision → b ≠ 0) (hfits : Word.Fits (op.rangeWitness a b)) :
    Folds (.binary mark op lhs rhs) (op.onIntegers a b)

namespace Word

theorem constant_eq_ok {position : Position} {n m : Int} : constant position n = .ok m ↔ Fits n ∧ n = m := by
  unfold constant
  split_ifs with h <;> simp [h]

theorem fits_tmod {a : Int} (h : Fits a) (b : Int) : Fits (a.tmod b) := by
  have habs : (a.tmod b).natAbs ≤ a.natAbs := by
    rw [Int.natAbs_tmod]
    exact Nat.mod_le _ _
  unfold Fits least greatest at *
  rcases Int.le_total 0 a with ha | ha
  · have := Int.tmod_nonneg b ha
    omega
  · have := Int.tmod_nonneg b (Int.neg_nonneg_of_nonpos ha)
    rw [Int.neg_tmod] at this
    omega

end Word

/-- Division down is division toward zero, or one less. -/
theorem fdiv_eq_tdiv_sub {a b : Int} (hb : b ≠ 0) : a.fdiv b = a.tdiv b - if b ∣ a ∨ (0 ≤ a ↔ 0 ≤ b) then 0 else 1 := by
  rw [Int.fdiv_eq_tdiv]
  by_cases hdvd : b ∣ a
  · simp [hdvd]
  · rcases Int.lt_or_gt_of_ne hb with hneg | hpos
    · by_cases ha : 0 ≤ a <;> simp [hdvd, ha, Int.not_le.mpr hneg, Int.sign_eq_neg_one_of_neg hneg]
    · by_cases ha : 0 ≤ a <;> simp [hdvd, ha, Int.le_of_lt hpos, Int.sign_eq_one_of_pos hpos]

theorem fmod_eq_tmod_add {a b : Int} (hb : b ≠ 0) : a.fmod b = a.tmod b + if b ∣ a ∨ (0 ≤ a ↔ 0 ≤ b) then 0 else b := by
  have hf := Int.mul_fdiv_add_fmod a b
  have ht := Int.mul_tdiv_add_tmod a b
  rw [fdiv_eq_tdiv_sub hb] at hf
  split_ifs at hf ⊢
  · rw [Int.sub_zero] at hf
    omega
  · rw [Int.mul_sub] at hf
    omega

namespace Expr

theorem folds_of_constant {e : Expr} {v : Int} (h : e.constant = .ok v) : e.Folds v := by
  cases e with
  | lit mark literal =>
    cases literal with
    | int value =>
      obtain rfl : (value : Int) = v := by simpa [Expr.constant] using h
      exact .lit
    | _ => cases h
  | unary mark op operand =>
    cases op with
    | plus => exact .plus (folds_of_constant h)
    | minus =>
      obtain ⟨a, ha, h⟩ := bind_eq_ok.mp h
      obtain ⟨hfits, rfl⟩ := Word.constant_eq_ok.mp h
      exact .minus (folds_of_constant ha) hfits
    | _ => cases h
  | binary mark op lhs rhs =>
    rw [Expr.constant] at h
    split_ifs at h with hop
    obtain ⟨a, ha, h⟩ := bind_eq_ok.mp h
    obtain ⟨b, hb, h⟩ := bind_eq_ok.mp h
    split_ifs at h with hzero
    obtain ⟨_, hrange, h⟩ := bind_eq_ok.mp h
    obtain rfl : op.onIntegers a b = v := by simpa [pure, Except.pure] using h
    exact .binary hop (folds_of_constant ha) (folds_of_constant hb) (fun hdiv hb => hzero ⟨hb, hdiv⟩)
      (Word.constant_eq_ok.mp hrange).1
  | _ => cases h
termination_by structural e

theorem Folds.constant_eq {e : Expr} {v : Int} (h : e.Folds v) : e.constant = .ok v := by
  induction h with
  | lit => rfl
  | plus _ ih => exact ih
  | minus _ hfits ih => exact bind_eq_ok.mpr ⟨_, ih, Word.constant_eq_ok.mpr ⟨hfits, rfl⟩⟩
  | @binary mark op lhs rhs a b hop _ _ hzero hfits ihl ihr =>
    rw [Expr.constant, if_pos hop]
    refine bind_eq_ok.mpr ⟨a, ihl, bind_eq_ok.mpr ⟨b, ihr, ?_⟩⟩
    rw [if_neg fun h => hzero h.2 h.1]
    exact bind_eq_ok.mpr ⟨_, Word.constant_eq_ok.mpr ⟨hfits, rfl⟩, rfl⟩

theorem Folds.fits {e : Expr} {v : Int} (h : e.Folds v) (hlit : e.WordLiterals) : Word.Fits v := by
  induction h with
  | lit => exact ⟨by unfold Word.least; omega, hlit⟩
  | plus _ ih => exact ih hlit
  | minus _ hfits _ => exact hfits
  | @binary mark op lhs rhs a b hop _ _ _ hfits ihl _ =>
    cases op with
    | mod => exact Word.fits_tmod (ihl hlit.1) b
    | _ => exact hfits

end Expr

namespace BinaryOp

/-- An arithmetic operator on integers; division goes down. -/
def rounded : BinaryOp → Int → Int → Int
  | .div, a, b => a.fdiv b
  | .mod, a, b => a.fmod b
  | op, a, b => op.onIntegers a b

theorem rounded_eq {op : BinaryOp} {a b : Int} (hzero : op.isDivision → b ≠ 0)
    (h : op.isDivision → b ∣ a ∨ (0 ≤ a ↔ 0 ≤ b)) : op.rounded a b = op.onIntegers a b := by
  cases op with
  | div => rw [rounded, fdiv_eq_tdiv_sub (hzero rfl), if_pos (h rfl), Int.sub_zero, onIntegers]
  | mod => rw [rounded, fmod_eq_tmod_add (hzero rfl), if_pos (h rfl), Int.add_zero, onIntegers]
  | _ => rfl

/-- As words too, the two divisions differ on operands of different signs, unless they are exact. -/
theorem ofInt_rounded_eq_iff {op : BinaryOp} {a b : Int} (hop : op.isDivision) (hb : b ≠ 0)
    (hfits : Word.Fits b) : BitVec.ofInt 64 (op.rounded a b) = .ofInt 64 (op.onIntegers a b) ↔
      b ∣ a ∨ (0 ≤ a ↔ 0 ≤ b) := by
  refine ⟨fun h => ?_, fun h => by rw [rounded_eq (fun _ => hb) fun _ => h]⟩
  by_contra hne
  replace h := congrArg BitVec.toNat h
  unfold Word.Fits Word.least Word.greatest at hfits
  cases op with
  | div =>
    rw [rounded, fdiv_eq_tdiv_sub hb, if_neg hne, onIntegers, BitVec.toNat_ofInt, BitVec.toNat_ofInt] at h
    omega
  | mod =>
    rw [rounded, fmod_eq_tmod_add hb, if_neg hne, onIntegers, BitVec.toNat_ofInt, BitVec.toNat_ofInt] at h
    omega
  | _ => cases hop

end BinaryOp

/-- Every division is exact or of operands with the same sign. -/
def Expr.RoundsAlike : Expr → Prop
  | .unary _ _ operand => operand.RoundsAlike
  | .binary _ op lhs rhs => lhs.RoundsAlike ∧ rhs.RoundsAlike ∧
    (op.isDivision → ∀ a ∈ lhs.constant.toOption, ∀ b ∈ rhs.constant.toOption, b ∣ a ∨ (0 ≤ a ↔ 0 ≤ b))
  | _ => True

instance Expr.decidableRoundsAlike : (e : Expr) → Decidable e.RoundsAlike
  | .unary _ _ operand => operand.decidableRoundsAlike
  | .binary _ op lhs rhs =>
    have := lhs.decidableRoundsAlike
    have := rhs.decidableRoundsAlike
    inferInstanceAs (Decidable (lhs.RoundsAlike ∧ rhs.RoundsAlike ∧ (op.isDivision →
      ∀ a ∈ lhs.constant.toOption, ∀ b ∈ rhs.constant.toOption, b ∣ a ∨ (0 ≤ a ↔ 0 ≤ b))))
  | .lit .. | .name .. | .call .. | .cast .. | .new .. | .del .. | .index .. | .field .. | .block .. =>
    isTrue trivial

end MmixCompiler
