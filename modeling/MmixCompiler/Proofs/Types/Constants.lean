import MmixCompiler.Proofs.Tree.Literals
import MmixCompiler.Proofs.Types.Resolution

/-! Constant expressions over the integers. An expression folds to what it is worth if it is made of integer
literals, signs and arithmetic, no divisor is zero, and every term fits a word. One remainder is left out: its
value is zero, but the quotient that goes with it does not fit. -/

namespace MmixCompiler

namespace Expr

/-- The expression with its operands, their operands, and so on. -/
def terms : Expr → List Expr
  | .unary mark op operand => .unary mark op operand :: operand.terms
  | .binary mark op lhs rhs => .binary mark op lhs rhs :: (lhs.terms ++ rhs.terms)
  | e => [e]

/-- What an expression of literals, signs and arithmetic is worth; division goes toward zero. -/
def worth : Expr → Int
  | .lit _ (.int value) => value
  | .unary _ .plus operand => operand.worth
  | .unary _ .minus operand => -operand.worth
  | .binary _ .add lhs rhs => lhs.worth + rhs.worth
  | .binary _ .sub lhs rhs => lhs.worth - rhs.worth
  | .binary _ .mul lhs rhs => lhs.worth * rhs.worth
  | .binary _ .div lhs rhs => lhs.worth.tdiv rhs.worth
  | .binary _ .mod lhs rhs => lhs.worth.tmod rhs.worth
  | _ => 0

/-- Integer literals, signs and arithmetic. -/
def isFoldable : Expr → Bool
  | .lit _ (.int _) | .unary _ .plus _ | .unary _ .minus _ => true
  | .binary _ .add .. | .binary _ .sub .. | .binary _ .mul .. | .binary _ .div .. | .binary _ .mod .. => true
  | _ => false

/-- Whether an expression divides by what is worth zero. -/
def dividesByZero : Expr → Bool
  | .binary _ .div _ rhs | .binary _ .mod _ rhs => rhs.worth = 0
  | _ => false

/-- Whether an expression is the remainder of the least word by minus one. -/
def isLeastRemainder : Expr → Bool
  | .binary _ .mod lhs rhs => lhs.worth = Word.least ∧ rhs.worth = -1
  | _ => false

/-- A term with a value: it may be folded, does not divide by zero, and fits a word. -/
structure Regular (e : Expr) : Prop where
  foldable : e.isFoldable
  divisor : e.dividesByZero = false
  fits : Word.Fits e.worth

instance decidableRegular (e : Expr) : Decidable e.Regular :=
  decidable_of_iff (e.isFoldable ∧ e.dividesByZero = false ∧ Word.Fits e.worth)
    ⟨fun h => ⟨h.1, h.2.1, h.2.2⟩, fun h => ⟨h.foldable, h.divisor, h.fits⟩⟩

theorem mem_terms_self (e : Expr) : e ∈ e.terms := by cases e <;> simp [terms]

theorem binary_isFoldable {mark : Mark} {op : BinaryOp} {lhs rhs : Expr} :
    (Expr.binary mark op lhs rhs).isFoldable = op.isArithmetic := by cases op <;> rfl

end Expr

/-- A quotient of words fits a word, but for that of the least one by minus one. -/
theorem Word.fits_tdiv_iff {a b : Int} (ha : Fits a) : Fits (a.tdiv b) ↔ ¬ (a = least ∧ b = -1) := by
  constructor
  · rintro h ⟨rfl, rfl⟩
    revert h
    decide
  · intro h
    have habs : (a.tdiv b).natAbs = a.natAbs / b.natAbs := Int.natAbs_tdiv a b
    have hle : a.natAbs / b.natAbs ≤ a.natAbs := Nat.div_le_self _ _
    unfold Fits least greatest at *
    by_cases hleast : a = -9223372036854775808
    · -- the quotient of the least word by anything but one and minus one is at most half of it
      have hb : b ≠ -1 := fun hb => h ⟨hleast, hb⟩
      rcases Nat.lt_or_ge b.natAbs 2 with hsmall | hlarge
      · have hcases : b = 0 ∨ b = 1 := by omega
        rcases hcases with rfl | rfl
        · simp
        · simpa using ha
      · have hhalf : a.natAbs / b.natAbs ≤ a.natAbs / 2 := Nat.div_le_div_left hlarge (by decide)
        omega
    · omega

namespace Expr

variable {e : Expr} {v : Int}

theorem Folds.worth_eq (h : e.Folds v) : e.worth = v := by
  induction h with
  | lit => rfl
  | plus _ ih => exact ih
  | minus _ _ ih => rw [worth, ih]
  | @binary mark op lhs rhs a b hop _ _ _ _ ihl ihr =>
    cases op with
    | add | sub | mul | div | mod => rw [worth, ihl, ihr, BinaryOp.onIntegers]
    | _ => cases hop

theorem Folds.terms (h : e.Folds v) (hlit : e.WordLiterals) :
    ∀ s ∈ e.terms, s.Regular ∧ s.isLeastRemainder = false := by
  induction h with
  | @lit mark value =>
    have hfolds : (Expr.lit mark (.int value)).Folds value := .lit
    exact List.forall_mem_singleton.mpr ⟨⟨rfl, rfl, hfolds.fits hlit⟩, rfl⟩
  | @plus mark e v h ih =>
    have hfolds : (Expr.unary mark .plus e).Folds v := .plus h
    have hfits : Word.Fits (Expr.unary mark .plus e).worth := hfolds.worth_eq ▸ hfolds.fits hlit
    exact List.forall_mem_cons.mpr ⟨⟨⟨rfl, rfl, hfits⟩, rfl⟩, ih hlit⟩
  | @minus mark e v h hneg ih =>
    have hfolds : (Expr.unary mark .minus e).Folds (-v) := .minus h hneg
    have hfits : Word.Fits (Expr.unary mark .minus e).worth := hfolds.worth_eq ▸ hneg
    exact List.forall_mem_cons.mpr ⟨⟨⟨rfl, rfl, hfits⟩, rfl⟩, ih hlit⟩
  | @binary mark op lhs rhs a b hop hlhs hrhs hzero hrange ihl ihr =>
    have hfolds : (Expr.binary mark op lhs rhs).Folds (op.onIntegers a b) := .binary hop hlhs hrhs hzero hrange
    have hfits : Word.Fits (Expr.binary mark op lhs rhs).worth := hfolds.worth_eq ▸ hfolds.fits hlit
    have hparts : ∀ s ∈ lhs.terms ++ rhs.terms, s.Regular ∧ s.isLeastRemainder = false := fun s hs =>
      (List.mem_append.mp hs).elim (ihl hlit.1 s) (ihr hlit.2 s)
    refine List.forall_mem_cons.mpr ⟨⟨⟨binary_isFoldable.trans hop, ?_, hfits⟩, ?_⟩, hparts⟩
    · cases op with
      | div | mod => exact decide_eq_false fun h => hzero rfl (hrhs.worth_eq.symm.trans h)
      | _ => rfl
    · cases op with
      | mod =>
        rw [isLeastRemainder, hlhs.worth_eq, hrhs.worth_eq]
        exact decide_eq_false ((Word.fits_tdiv_iff (hlhs.fits hlit.1)).mp hrange)
      | _ => rfl

/-- An expression of regular terms folds to what it is worth, unless the one remainder is among them. -/
theorem folds_worth {e : Expr} (h : ∀ s ∈ e.terms, s.Regular ∧ s.isLeastRemainder = false) : e.Folds e.worth := by
  have hself := (h e e.mem_terms_self).1
  cases e with
  | lit mark value =>
    cases value with
    | int n => exact .lit
    | _ => cases hself.foldable
  | unary mark op operand =>
    have hoperand := folds_worth (e := operand) fun s hs => h s (List.mem_cons_of_mem _ hs)
    cases op with
    | plus => exact .plus hoperand
    | minus => exact .minus hoperand hself.fits
    | _ => cases hself.foldable
  | binary mark op lhs rhs =>
    have hlhs := folds_worth (e := lhs) fun s hs => h s (List.mem_cons_of_mem _ (List.mem_append_left _ hs))
    have hrhs := folds_worth (e := rhs) fun s hs => h s (List.mem_cons_of_mem _ (List.mem_append_right _ hs))
    have hop : op.isArithmetic := binary_isFoldable.symm.trans hself.foldable
    cases op with
    | add | sub | mul => exact .binary hop hlhs hrhs (fun hdiv => by cases hdiv) hself.fits
    | div => exact .binary hop hlhs hrhs (fun _ => of_decide_eq_false hself.divisor) hself.fits
    | mod =>
      refine .binary hop hlhs hrhs (fun _ => of_decide_eq_false hself.divisor) ?_
      have hfits := (h lhs (List.mem_cons_of_mem _ (List.mem_append_left _ lhs.mem_terms_self))).1.fits
      exact (Word.fits_tdiv_iff hfits).mpr (of_decide_eq_false (h _ (mem_terms_self _)).2)
    | _ => cases hop
  | _ => cases hself.foldable
termination_by structural e

/-- Folding finds that an expression is not constant only at a term that may not be folded. -/
theorem exists_of_nonConstant {e : Expr} {position : Position} (h : e.constant = .error ⟨position, .nonConstant⟩) :
    ∃ s ∈ e.terms, s.isFoldable = false ∧ s.position = position := by
  have hoverflow : ∀ {place : Position} {n : Int}, Word.constant place n ≠ .error ⟨position, .nonConstant⟩ := by
    intro place n
    unfold Word.constant
    split <;> simp
  fun_induction Expr.constant e with
  | case1 => cases h
  | case2 mark operand ih =>
    obtain ⟨s, hs, hfoldable⟩ := ih h
    exact ⟨s, List.mem_cons_of_mem _ hs, hfoldable⟩
  | case3 mark operand ih =>
    rcases bind_eq_error.mp h with h | ⟨n, -, h⟩
    · obtain ⟨s, hs, hfoldable⟩ := ih h
      exact ⟨s, List.mem_cons_of_mem _ hs, hfoldable⟩
    · exact absurd h hoverflow
  | case4 mark op lhs rhs hop ihl ihr =>
    rcases bind_eq_error.mp h with h | ⟨a, -, h⟩
    · obtain ⟨s, hs, hfoldable⟩ := ihl h
      exact ⟨s, List.mem_cons_of_mem _ (List.mem_append_left _ hs), hfoldable⟩
    rcases bind_eq_error.mp h with h | ⟨b, -, h⟩
    · obtain ⟨s, hs, hfoldable⟩ := ihr h
      exact ⟨s, List.mem_cons_of_mem _ (List.mem_append_right _ hs), hfoldable⟩
    split at h
    · cases h
    · rcases bind_eq_error.mp h with h | ⟨_, -, h⟩
      · exact absurd h hoverflow
      · cases h
  | case5 mark op lhs rhs hop =>
    cases h
    exact ⟨_, mem_terms_self _, binary_isFoldable.trans (Bool.eq_false_iff.mpr hop), rfl⟩
  | case6 mark value hvalue =>
    cases h
    refine ⟨_, mem_terms_self _, ?_, rfl⟩
    cases value with
    | int n => exact (hvalue n rfl).elim
    | _ => rfl
  | case7 mark op operand hplus hminus =>
    cases h
    refine ⟨_, mem_terms_self _, ?_, rfl⟩
    cases op with
    | plus => exact (hplus rfl).elim
    | minus => exact (hminus rfl).elim
    | _ => rfl
  | _ =>
    cases h
    exact ⟨_, mem_terms_self _, rfl, rfl⟩

/-- An expression whose literals are words folds to a value if and only if each of its terms may be folded, does not
divide by zero and fits a word, and none is the remainder of the least word by minus one; the value is then what the
expression is worth over the integers. That it is not constant is found only at a term that may not be folded. -/
theorem constant_exact {e : Expr} (hlit : e.WordLiterals) :
    (∀ v, e.constant = .ok v ↔ (∀ s ∈ e.terms, s.Regular) ∧ (∀ s ∈ e.terms, s.isLeastRemainder = false) ∧ v = e.worth) ∧
    ∀ position, e.constant = .error ⟨position, .nonConstant⟩ →
      ∃ s ∈ e.terms, s.isFoldable = false ∧ s.position = position := by
  refine ⟨fun v => ⟨fun h => ?_, ?_⟩, fun _ => exists_of_nonConstant⟩
  · have hfolds := folds_of_constant h
    have hterms := hfolds.terms hlit
    exact ⟨fun s hs => (hterms s hs).1, fun s hs => (hterms s hs).2, hfolds.worth_eq.symm⟩
  · rintro ⟨hregular, hremainder, rfl⟩
    exact (folds_worth fun s hs => ⟨hregular s hs, hremainder s hs⟩).constant_eq

/-- The least word divided toward zero, and its remainder by another divisor than minus one. -/
def limits : String := "(-9223372036854775807 - 1) / 2 + (-9223372036854775807 - 1) % -3"

/-- The expression folds at the limits of words; one with a name in it has no value, whatever else is wrong with it. -/
theorem limits_folded : (∃ e, (Parse.expr.run.run (.ofString limits)).1 = .ok e ∧ e.WordLiterals ∧
      e.constant = .ok (-4611686018427387906)) ∧
    ∃ e, (Parse.expr.run.run (.ofString "1 / 0 * n")).1 = .ok e ∧ e.WordLiterals ∧ ∀ v, e.constant ≠ .ok v := by
  constructor
  · have h : ((Parse.expr.run.run (.ofString limits)).1.toOption.map fun e =>
        (decide (∀ s ∈ e.terms, s.Regular), decide (∀ s ∈ e.terms, s.isLeastRemainder = false), e.worth)) =
          some (true, true, -4611686018427387906) := by decide +kernel
    simp only [Option.map_eq_some_iff, toOption_eq_some, Prod.mk.injEq, decide_eq_true_eq] at h
    obtain ⟨e, he, hregular, hremainder, hworth⟩ := h
    have hlit := Parse.wordLiterals_expr he
    exact ⟨e, he, hlit, ((constant_exact hlit).1 _).mpr ⟨hregular, hremainder, hworth.symm⟩⟩
  · have h : ((Parse.expr.run.run (.ofString "1 / 0 * n")).1.toOption.map fun e =>
        decide (∀ s ∈ e.terms, s.Regular)) = some false := by decide +kernel
    simp only [Option.map_eq_some_iff, toOption_eq_some, decide_eq_false_iff_not] at h
    obtain ⟨e, he, hregular⟩ := h
    have hlit := Parse.wordLiterals_expr he
    exact ⟨e, he, hlit, fun v hv => hregular (((constant_exact hlit).1 v).mp hv).1⟩

/-- The remainder of the least word by minus one is worth zero, and all its terms are regular, but it overflows. -/
theorem leastRemainder_overflows :
    ∃ e, (Parse.expr.run.run (.ofString "(-9223372036854775807 - 1) % -1")).1 = .ok e ∧ e.WordLiterals ∧
      (∀ s ∈ e.terms, s.Regular) ∧ e.worth = 0 ∧ e.constant = .error ⟨e.position, .type .constantOverflow⟩ := by
  have h : ((Parse.expr.run.run (.ofString "(-9223372036854775807 - 1) % -1")).1.toOption.map fun e =>
      (decide (∀ s ∈ e.terms, s.Regular), e.worth,
        decide (e.constant = .error ⟨e.position, .type .constantOverflow⟩))) = some (true, 0, true) := by decide +kernel
  simp only [Option.map_eq_some_iff, toOption_eq_some, Prod.mk.injEq, decide_eq_true_eq] at h
  obtain ⟨e, he, hregular, hworth, hconstant⟩ := h
  exact ⟨e, he, Parse.wordLiterals_expr he, hregular, hworth, hconstant⟩

end Expr

end MmixCompiler
