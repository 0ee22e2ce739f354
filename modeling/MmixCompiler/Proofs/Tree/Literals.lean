import MmixCompiler.Proofs.Tree.Acceptance
import MmixCompiler.Proofs.Types.Folding

/-! The integer literals of a text fit words. -/

namespace MmixCompiler

/-- Integer tokens fit words. -/
def Token.Kind.FitsWord (k : Token.Kind) : Prop := ∀ n, k = .int n → (n : Int) ≤ Word.greatest

def Lexeme.FitsWord (l : Lexeme) : Prop := ∀ k, l.Shows k → k.FitsWord

theorem Scanner.fitsWord_advance (s : Scanner) : s.advance.1.FitsWord := by
  rintro k ⟨t, ht, rfl⟩ n hn
  simp only [Scanner.advance] at ht
  split at ht
  · next kind hkind =>
    cases ht
    exact Token.le_greatest_of_scan (hkind.trans (congrArg _ hn))
  · cases ht

theorem Stream.fitsWord_ofScanner (s : Scanner) : ∀ l ∈ (Stream.ofScanner s).ahead, l.FitsWord := by
  fun_induction Stream.ofScanner s with
  | case1 s r h t ih => exact List.forall_mem_cons.mpr ⟨s.fitsWord_advance, ih⟩
  | case2 s r h => simp

theorem Stream.Begins.fitsWord {s rest : Stream} {ks : List Token.Kind} (h : s.Begins ks rest)
    (hs : ∀ l ∈ s.ahead, l.FitsWord) : ∀ k ∈ ks, k.FitsWord := by
  induction h with
  | nil => simp
  | @cons s k ks rest hne hk _ ih =>
    obtain ⟨l, ls, hahead⟩ := List.exists_cons_of_ne_nil hne
    rw [head, hahead, List.headD_cons] at hk
    refine List.forall_mem_cons.mpr ⟨hs l (by simp [hahead]) k hk, ih fun l' hl' => hs l' ?_⟩
    exact List.mem_of_mem_tail hl'

theorem Derives.wordLiterals {p : Phrase} {ks : List Token.Kind} (h : Derives p ks) (hks : ∀ k ∈ ks, k.FitsWord)
    {ℓ : Precedence} {e : Expr} (hp : p = .expr ℓ e) : e.WordLiterals := by
  induction h generalizing ℓ e with
  | tighter _ _ ih =>
    cases hp
    exact ih hks rfl
  | binary _ _ _ _ _ ihl ihr | comparison _ _ _ ihl ihr =>
    cases hp
    exact ⟨ihl (fun k hk => hks k (by simp [hk])) rfl, ihr (fun k hk => hks k (by simp [hk])) rfl⟩
  | unary _ ih =>
    cases hp
    have hoperand := ih (fun k hk => hks k (by simp [hk])) rfl
    exact hoperand
  | parens _ ih =>
    cases hp
    exact ih (fun k hk => hks k (by simp [hk])) rfl
  | @lit value =>
    cases hp
    cases value with
    | int n => exact hks (.int n) (by simp [Literal.token]) n rfl
    | _ => trivial
  | new | del | index | field | name | call | cast | block =>
    cases hp
    trivial
  | _ => cases hp

theorem Expr.wordLiterals_bare {e : Expr} : e.bare.WordLiterals ↔ e.WordLiterals := by
  cases e with
  | lit mark value => cases value <;> rfl
  | unary mark op operand => exact operand.wordLiterals_bare
  | binary mark op lhs rhs => exact and_congr lhs.wordLiterals_bare rhs.wordLiterals_bare
  | _ => rfl
termination_by structural e

theorem Parse.wordLiterals_expr {src : String} {e : Expr} (h : (Parse.expr.run.run (.ofString src)).1 = .ok e) :
    e.WordLiterals := by
  have hmeets : Meets Parse.expr (.ofString src) (fun e s' => ∃ ks, (Stream.ofString src).Begins ks s'.stream ∧
      Derives (.expr .disjunction e.bare) ks) fun _ => True := by
    rw [Parse.expr, meets_bind, grammar, meets_bind, meets_get, meets_pure]
    refine Meets.imp ((Grammar.sound_ofDepth _).expr (.ofString src) (Stream.closed_ofScanner _)
      (Nat.lt_succ_self _)) ?_
      fun _ _ => trivial
    rintro e s' ⟨ls, ks, hls, hd, hs', -⟩
    have hsrc : Stream.ofString src = s'.stream.prepend ls := hs'
    exact ⟨ks, hsrc ▸ Stream.begins_prepend hls, hd⟩
  obtain ⟨ks, hks, hd⟩ := hmeets.of_gives
    (show Gives Parse.expr (.ofString src) e (Parse.expr.run.run (.ofString src)).2 from Prod.ext h rfl)
  exact Expr.wordLiterals_bare.mp (hd.wordLiterals (hks.fitsWord (Stream.fitsWord_ofScanner _)) rfl)

end MmixCompiler
