import MmixCompiler.Proofs.Ir.Calls
import MmixCompiler.Proofs.Tree.Literals

/-! Folding and executing constant expressions. The code of a constant expression leaves in its
destination what the expression is worth when divisions go down. -/

namespace MmixCompiler

open Mmix

/-- What the code of a constant expression computes. -/
def Expr.word : Expr → Octa
  | .lit _ (.int value) => .ofInt 64 value
  | .unary _ .plus operand => operand.word
  | .unary _ .minus operand => -operand.word
  | .binary _ op lhs rhs => op.word lhs.word rhs.word
  | _ => 0

/-- Code that computes a word from nothing. -/
structure Ir.Expr.Computes (c : Ir.Expr) (x : Octa) : Prop where
  structured : c.Structured
  labels : c.labels = []
  temps : c.temps = []
  calls : c.calls = []
  eval : ∀ address call fuel σ, c.eval (wordMachine address call) fuel σ = .done x σ

namespace Ir.Expr.Computes

variable {c d : Ir.Expr} {x y : Octa}

theorem const (value : Int) : (Ir.Expr.const value).Computes (.ofInt 64 value) :=
  ⟨trivial, rfl, rfl, rfl, fun _ _ _ _ => rfl⟩

theorem neg (h : c.Computes x) : (Ir.Expr.unop .neg c).Computes (-x) :=
  ⟨h.structured, h.labels, h.temps, h.calls, fun address call fuel σ => by rw [Ir.Expr.eval, h.eval]; rfl⟩

theorem binop (op : BinaryOp) (h : c.Computes x) (h' : d.Computes y) :
    (Ir.Expr.binop op c d).Computes (op.word x y) where
  structured := ⟨h.structured, h'.structured⟩
  labels := by simp [Ir.Expr.labels, h.labels, h'.labels]
  temps := by simp [Ir.Expr.temps, h.temps, h'.temps]
  calls := by simp [Ir.Expr.calls, h.calls, h'.calls]
  eval address call fuel σ := by
    rw [Ir.Expr.eval, h.eval, Outcome.bind, h'.eval]
    rfl

end Ir.Expr.Computes

theorem Expr.Folds.exists_code {e : Expr} {v : Int} (h : e.Folds v) (a : Analysis) (l : Layout) (f : Frame)
    (g : Generator) :
    ∃ c g', Gives (e.code a l f false) g c g' ∧ g'.supply = g.supply ∧ c.Computes e.word := by
  -- what is computed is noted and returned
  have hvalue : ∀ {mark : Mark} (x : Gen Ir.Expr) {c : Ir.Expr} {g₁ g₂ : Generator}, Gives x g₁ c g₂ →
      ∃ g', Gives (Gen.value false mark x) g₁ c g' ∧ g'.supply = g₂.supply := by
    intro mark x c g₁ g₂ hx
    rw [Gen.value, if_neg Bool.false_ne_true]
    exact ⟨_, gives_bind.mpr ⟨_, _, hx, gives_bind.mpr ⟨⟨⟩, _, rfl, gives_pure.mpr ⟨rfl, rfl⟩⟩⟩, rfl⟩
  induction h generalizing g with
  | @lit mark value =>
    obtain ⟨g', hg', hs'⟩ := hvalue (Literal.code mark (.int value)) (gives_pure.mpr ⟨rfl, rfl⟩)
    exact ⟨_, g', hg', hs', .const value⟩
  | @plus mark e _ _ ih =>
    obtain ⟨c, g₁, hc, hs, hcomputes⟩ := ih g
    obtain ⟨g', hg', hs'⟩ := hvalue (e.code a l f false) hc
    exact ⟨c, g', hg', hs'.trans hs, hcomputes⟩
  | @minus mark e _ _ _ ih =>
    obtain ⟨c, g₁, hc, hs, hcomputes⟩ := ih g
    obtain ⟨g', hg', hs'⟩ := hvalue (do return .unop .neg (← e.code a l f false))
      (gives_bind.mpr ⟨c, g₁, hc, gives_pure.mpr ⟨rfl, rfl⟩⟩)
    exact ⟨_, g', hg', hs'.trans hs, hcomputes.neg⟩
  | @binary mark op lhs rhs _ _ _ _ _ _ _ ihl ihr =>
    obtain ⟨c, g₁, hc, hs₁, hcomputes⟩ := ihl g
    obtain ⟨d, g₂, hd, hs₂, hcomputes'⟩ := ihr g₁
    obtain ⟨g', hg', hs'⟩ := hvalue (do return .binop op (← lhs.code a l f false) (← rhs.code a l f false))
      (gives_bind.mpr ⟨c, g₁, hc, gives_bind.mpr ⟨d, g₂, hd, gives_pure.mpr ⟨rfl, rfl⟩⟩⟩)
    exact ⟨_, g', hg', hs'.trans (hs₂.trans hs₁), hcomputes.binop op hcomputes'⟩

/-- The code of the expression, made canonical and selected, leaves the word in its destination, whatever
was in registers and memory. -/
def Expr.Leaves (e : Expr) (x : Octa) : Prop :=
  ∀ (a : Analysis) (l : Layout) (f : Frame) (g : Generator) (kept : Nat) (t : Temp), t < g.supply.temps →
    ∃ c g' code s lines s', Gives (e.code a l f false) g c g' ∧
      Gives (Ir.Stmt.move (.temp t) c).flatten g'.supply code s ∧
      Gives (Ir.Stmt.selectAll kept code) s lines s' ∧
      ∀ w core, ∃ core', Reaches w lines (0, core) (lines.length, core') ∧ core'.regs (.temp t) = x

theorem served_of_callsAll {code : List Ir.Stmt} (h : Ir.Stmt.callsAll code = []) (w : World)
    (call : Label → List Octa → Memory → Octa × Memory) (sp : Octa) : Served w call sp 0 code := by
  have hnone : ∀ dst l args, .move dst (.call l args) ∉ code := by
    intro dst l args hmem
    have : args.length ∈ Ir.Stmt.callsAll code :=
      Ir.Stmt.mem_callsAll.mpr ⟨_, hmem, by simp [Ir.Stmt.calls, Ir.Expr.calls]⟩
    simp [h] at this
  refine ⟨Nat.zero_le _, fun st hst => ?_, fun dst l args hmem => absurd hmem (hnone dst l args)⟩
  unfold Ir.Stmt.argWords
  split
  · exact absurd hst (hnone _ _ _)
  · exact Nat.le_refl 0

theorem Ir.Expr.Computes.exists_reaches {c : Ir.Expr} {x : Octa} (h : c.Computes x) {s : Supply} {t : Temp}
    (ht : t < s.temps) (kept : Nat) : ∃ code s₁ lines s', Gives (Ir.Stmt.move (.temp t) c).flatten s code s₁ ∧
      Gives (Ir.Stmt.selectAll kept code) s₁ lines s' ∧
      ∀ w core, ∃ core', Reaches w lines (0, core) (lines.length, core') ∧ core'.regs (.temp t) = x := by
  have hgenerated : (Ir.Stmt.move (.temp t) c).Generated := h.structured
  obtain ⟨code, s₁, hcode, hlaid⟩ := hgenerated.exists_flatten s
  have hflat := Ir.Stmt.flat _ s code s₁ hcode
  have hnodup : (Ir.labelsOf code).Nodup :=
    hlaid.nodup (by simp [Ir.Stmt.labels, h.labels]) (by simp [Ir.Stmt.labels, h.labels])
  have hcanon : Ir.Canonical code := ⟨hflat.forms, hnodup, hflat.falls⟩
  obtain ⟨blocks, s', hblocks⟩ := exists_gives_mapM (fun st hst => exists_select (hflat.forms st hst) kept) s₁
  refine ⟨code, s₁, blocks.flatten, s', hcode, gives_bind.mpr ⟨_, _, hblocks, gives_pure.mpr ⟨rfl, rfl⟩⟩, ?_⟩
  intro w core
  -- any calls will do, since the code makes none
  let call : Label → List Octa → Memory → Octa × Memory := fun _ _ mem => (0, mem)
  let m := wordMachine w.address call
  let σ : Ir.State Octa Memory := ⟨fun u => core.regs (.temp u), core.mem, []⟩
  have hcalls : Ir.Stmt.callsAll code ++ [] = c.calls := (Ir.Stmt.flattens _ hcode).calls
  have hserved : Served w call (core.regs .sp) 0 code := served_of_callsAll (by simpa [h.calls] using hcalls) w call _
  have htemps : ∀ u ∈ (Ir.Stmt.move (.temp t) c).temps, u < s.temps := by
    simpa [Ir.Stmt.temps, Ir.Expr.temps, h.temps] using ht
  obtain ⟨j, ⟨rest, τ⟩, hsteps, -, hrest, hagree, -⟩ :
      ∃ j d, Ir.Steps m code j (code, σ) d ∧ Ir.Keeps 0 σ d.2 ∧ d.1 = [] ∧
        Ir.Agree s.temps (σ.setTemp t x) d.2 ∧ _ := by
    have hfollows := hgenerated.follows m hcode hnodup htemps 0 σ
    rwa [Ir.Stmt.exec, h.eval, Ir.Outcome.bind] at hfollows
  subst hrest
  have hbound : ∀ st ∈ code, ∀ u ∈ st.temps, u < s₁.temps := by
    intro st hst u hu
    rcases hflat.temps st hst u hu with hu | hu
    · exact Nat.lt_of_lt_of_le (htemps u hu) hflat.supply
    · exact hu.2
  have hmatches : Matches s₁.temps (core.regs .sp) 0 σ core := ⟨fun _ _ => rfl, rfl, fun _ _ => rfl⟩
  obtain ⟨k, core', hk, hreaches, hmatches'⟩ := reaches_of_steps (k := 0)
    (chosen_of_mapM hblocks (Nat.le_refl _)) hcanon hbound hserved hmatches hsteps fun _ _ _ _ _ _ i hi => by cases hi
  refine ⟨core', ?_, ?_⟩
  · have hlength := (chosen_of_mapM hblocks (Nat.le_refl _)).length_eq
    have hall : blockStart blocks k = blocks.flatten.length := by
      rw [blockStart, List.take_of_length_le (hlength ▸ List.drop_eq_nil_iff.mp hk.symm)]
    rwa [hall] at hreaches
  · rw [hmatches'.temps t (Nat.lt_of_lt_of_le ht hflat.supply), hagree.temps t ht]
    simp [Ir.State.setTemp]

theorem Expr.Folds.leaves {e : Expr} {v : Int} (h : e.Folds v) : e.Leaves e.word := by
  intro a l f g kept t ht
  obtain ⟨c, g', hc, hsupply, hcomputes⟩ := h.exists_code a l f g
  obtain ⟨code, s, lines, s', hcode, hlines, hreaches⟩ := hcomputes.exists_reaches (hsupply ▸ ht) kept
  exact ⟨c, g', code, s, lines, s', hc, hcode, hlines, hreaches⟩

theorem toInt_ofInt_of_fits {n : Int} (h : Word.Fits n) : (BitVec.ofInt 64 n).toInt = n := by
  unfold Word.Fits Word.least Word.greatest at h
  exact BitVec.toInt_ofInt_eq_self (by decide) (by omega) (by omega)

/-- On words that integers fit, operators round down. -/
theorem BinaryOp.word_ofInt {op : BinaryOp} {a b : Int} (hop : op.isArithmetic) (ha : Word.Fits a)
    (hb : Word.Fits b) : op.word (.ofInt 64 a) (.ofInt 64 b) = .ofInt 64 (op.rounded a b) := by
  cases op with
  | add => exact (BitVec.ofInt_add a b).symm
  | sub =>
    change BitVec.ofInt 64 a - .ofInt 64 b = .ofInt 64 (a - b)
    rw [Int.sub_eq_add_neg, BitVec.ofInt_add, BitVec.ofInt_neg, BitVec.sub_eq_add_neg]
  | mul => exact (BitVec.ofInt_mul a b).symm
  | div => rw [BinaryOp.word, quotient, toInt_ofInt_of_fits ha, toInt_ofInt_of_fits hb, BinaryOp.rounded]
  | mod => rw [BinaryOp.word, remainder, toInt_ofInt_of_fits ha, toInt_ofInt_of_fits hb, BinaryOp.rounded]
  | _ => cases hop

/-- Where divisions round alike, the word is the folded value. -/
theorem Expr.Folds.word_eq {e : Expr} {v : Int} (h : e.Folds v) (hlit : e.WordLiterals) (hround : e.RoundsAlike) :
    e.word = .ofInt 64 v := by
  induction h with
  | lit => rfl
  | plus _ ih => exact ih hlit hround
  | minus _ _ ih => rw [Expr.word, ih hlit hround, BitVec.ofInt_neg]
  | @binary mark op lhs rhs a b hop hlhs hrhs hzero _ ihl ihr =>
    rw [Expr.word, ihl hlit.1 hround.1, ihr hlit.2 hround.2.1,
      BinaryOp.word_ofInt hop (hlhs.fits hlit.1) (hrhs.fits hlit.2),
      BinaryOp.rounded_eq hzero fun hdiv => hround.2.2 hdiv a (toOption_eq_some.mpr hlhs.constant_eq) b
        (toOption_eq_some.mpr hrhs.constant_eq)]

/-- The code of a constant expression leaves in its destination the value that the expression folds to, if every
division in it is exact or has operands of the same sign. The quotient or remainder of two such expressions is
left rounded down, and folded toward zero; these are the same word only in that case. -/
theorem folding_agrees_where_divisions_do {e : Expr} {v : Int} (hlit : e.WordLiterals) (hv : e.constant = .ok v) :
    (e.RoundsAlike → e.Leaves (.ofInt 64 v)) ∧
    ∀ mark op lhs rhs a b, e = .binary mark op lhs rhs → op.isDivision → lhs.RoundsAlike → rhs.RoundsAlike →
      lhs.constant = .ok a → rhs.constant = .ok b →
        v = op.onIntegers a b ∧ e.Leaves (.ofInt 64 (op.rounded a b)) ∧
          (BitVec.ofInt 64 (op.rounded a b) = .ofInt 64 v ↔ b ∣ a ∨ (0 ≤ a ↔ 0 ≤ b)) := by
  have hfolds := Expr.folds_of_constant hv
  refine ⟨fun hround => hfolds.word_eq hlit hround ▸ hfolds.leaves, ?_⟩
  rintro mark op lhs rhs a b rfl hdiv hlhs hrhs ha hb
  cases hfolds with
  | @binary _ _ _ _ a' b' hop hl hr hzero _ =>
    obtain rfl : a' = a := by simpa [hl.constant_eq] using ha
    obtain rfl : b' = b := by simpa [hr.constant_eq] using hb
    have hleaves := (Expr.folds_of_constant hv).leaves
    rw [Expr.word, hl.word_eq hlit.1 hlhs, hr.word_eq hlit.2 hrhs,
      BinaryOp.word_ofInt hop (hl.fits hlit.1) (hr.fits hlit.2)] at hleaves
    exact ⟨rfl, hleaves, BinaryOp.ofInt_rounded_eq_iff hdiv (hzero hdiv) (hr.fits hlit.2)⟩

/-- Where divisions round alike, the expression of a text folds to what its code leaves; of -7 by 2 the code leaves
the remainder 1. -/
theorem divisions_executed :
    (∃ e, (Parse.expr.run.run (.ofString "-7 / -2 * (9 % 4) - 6 / -3")).1 = .ok e ∧ e.WordLiterals ∧
      e.constant = .ok 5 ∧ e.RoundsAlike ∧ e.Leaves (.ofInt 64 5)) ∧
    (Expr.binary .blank .mod (.unary .blank .minus (.lit .blank (.int 7))) (.lit .blank (.int 2))).Leaves
      (.ofInt 64 1) := by
  constructor
  · have h : ((Parse.expr.run.run (.ofString "-7 / -2 * (9 % 4) - 6 / -3")).1.toOption.bind fun e =>
        e.constant.toOption.map fun v => (v, decide e.RoundsAlike)) = some (5, true) := by decide +kernel
    simp only [Option.bind_eq_some_iff, Option.map_eq_some_iff, toOption_eq_some, Prod.mk.injEq,
      decide_eq_true_eq] at h
    obtain ⟨e, he, v, hv, rfl, hround⟩ := h
    have hlit := Parse.wordLiterals_expr he
    exact ⟨e, he, hlit, hv, hround, (folding_agrees_where_divisions_do hlit hv).1 hround⟩
  · have hlit : (Expr.binary .blank .mod (.unary .blank .minus (.lit .blank (.int 7)))
        (.lit .blank (.int 2))).WordLiterals := ⟨by unfold Expr.WordLiterals Expr.WordLiterals; decide,
      by unfold Expr.WordLiterals; decide⟩
    have hconstant : (Expr.binary .blank .mod (.unary .blank .minus (.lit .blank (.int 7)))
        (.lit .blank (.int 2))).constant = .ok (-1) := rfl
    exact ((folding_agrees_where_divisions_do hlit hconstant).2 .blank .mod _ _ (-7) 2 rfl rfl trivial trivial rfl
      rfl).2.1

/-- The quotient of -7 by 2 folds to -3, and its code leaves -4. -/
theorem quotient_folds_toward_zero : ∃ e, (Parse.expr.run.run (.ofString "-7 / 2")).1 = .ok e ∧
    e.constant = .ok (-3) ∧ e.Leaves (.ofInt 64 (-4)) ∧ BitVec.ofInt 64 (-4) ≠ .ofInt 64 (-3) := by
  have h : ((Parse.expr.run.run (.ofString "-7 / 2")).1.toOption.bind fun e =>
      e.constant.toOption.map fun v => (v, e.word)) = some (-3, .ofInt 64 (-4)) := by decide +kernel
  simp only [Option.bind_eq_some_iff, Option.map_eq_some_iff, toOption_eq_some, Prod.mk.injEq] at h
  obtain ⟨e, he, v, hv, rfl, hword⟩ := h
  exact ⟨e, he, hv, hword ▸ (Expr.folds_of_constant hv).leaves, by decide⟩

end MmixCompiler
