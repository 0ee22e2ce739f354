import MmixCompiler.Proofs.Frame.Planning

/-! What calls pass on fills words: the arguments, by the typing rules, and parameters and results, by the forms of
signatures. -/

namespace MmixCompiler

theorem Registry.bytes_of_isWord {r : Registry} {t : TypeId} (h : r.isWord t) : r.bytes t = Word.size := by
  simp only [isWord, isInt, isChar, isBool, isPtr, pointee?, Bool.or_eq_true, decide_eq_true_eq] at h
  have hto : r.bytesTo (r.size + 1) t = some Word.size := by
    unfold bytesTo
    rcases h with ((h | h) | h) | h
    · rw [h]
    · rw [h]
    · rw [h]
    · split at h
      · next heq => rw [heq]
      · cases h
  rw [bytes, bytes?, hto, Option.getD_some]

theorem SourceType.Matches.isWord {b : Bindings} {t u : SourceType} (h : Matches b t u) {x : TypeShape SourceType}
    (hx : t.Unfolds b x) (hword : x.isWord) : ∃ y, u.Unfolds b y ∧ y.isWord := by
  obtain ⟨R, h, hR⟩ := h
  obtain ⟨x', y, hx', hy, hagrees⟩ := hR t u h
  obtain rfl := hx.unique hx'
  refine ⟨y, hy, ?_⟩
  cases hagrees with
  | atom | ptr => exact hword
  | arr | record => cases hword

theorem Judgement.Holds.words {b : Bindings} {params : List Decl} {args : List Expr}
    (h : Holds b (.arguments params args)) :
    ∀ e ∈ args, ∃ t x, Holds b (.value e t) ∧ t.Unfolds b x ∧ x.isWord := by
  induction args generalizing params with
  | nil => simp
  | cons e args ih =>
    cases h with
    | argument harg hmatch hparam hword hargs =>
      obtain ⟨y, hy, hword⟩ := hmatch.isWord hparam hword
      exact List.forall_mem_cons.mpr ⟨⟨_, y, harg, hy, hword⟩, ih hargs⟩

namespace Program

variable {p : Program} {a : Analysis}

theorem Formed.judged (hp : p.Formed) (h : p.analyze = .ok a) : ∀ q, p.InCode q → q.2.Judged a.bindings a.typing := by
  simp only [analyze, bind_eq_ok] at h
  obtain ⟨b, hbind, t, htyping, places, -, heq⟩ := h
  cases heq
  simp only [Program.typing, bind_eq_ok] at htyping
  obtain ⟨⟨_, s⟩, hrun, heq⟩ := htyping
  cases heq
  have hyields : Yields (do p.resolveTypes b; p.checkTypes b) {}
      (fun _ s => ∀ q, p.InCode q → q.2.Judged b s.typing) SemanticFault.Static :=
    yields_bind.mpr ((hp.yields_typing hbind).mono fun _ _ h => h.2.imp (fun _ _ h => h.2.2) fun _ h => h.1.static)
  exact hyields.of_run hrun

section
variable {k : Nat} {mark : Mark} {name : String} {args : List Expr}

theorem Formed.exists_params (hp : p.Formed) (h : p.analyze = .ok a)
    (hcall : p.InCode (k, .expr (.call mark name args))) :
    ∃ d params result, a.bindings[mark.id]? = some d ∧ d.signature? = some (params, result) ∧
      Judgement.Holds a.bindings (.arguments params args) := by
  obtain ⟨_, u, -, hholds, -⟩ := hp.judged h _ hcall
  cases hholds with
  | call _ hbound hsignature hargs => exact ⟨_, _, _, hbound, hsignature, hargs⟩

theorem Formed.exprBytes_argument (hp : p.Formed) (h : p.analyze = .ok a)
    (hcall : p.InCode (k, .expr (.call mark name args))) {e : Expr} (he : e ∈ args) :
    a.exprBytes e.mark = .ok Word.size := by
  obtain ⟨d, params, result, -, -, hargs⟩ := hp.exists_params h hcall
  obtain ⟨t, x, hholds, hx, hword⟩ := hargs.words e he
  have hcode : p.InCode (k, .expr e) := hcall.part (by simpa [Node.parts] using he) rfl
  obtain ⟨i, u, hi, hu, hrep⟩ := hp.judged h _ hcode
  obtain rfl := hu.unique hholds
  rw [Analysis.exprBytes, Analysis.exprType, show a.typing.exprTypes[e.mark.id]? = some i from hi]
  exact congrArg Except.ok (Registry.bytes_of_isWord (hrep.isWord_iff.mpr ⟨x, hx, hword⟩))

end

namespace Analyzed

variable (h : p.Analyzed a)
include h

theorem declBytes_parameter {d : Decl} (hd : p.Has (.decl d)) (hrole : d.HasRole .parameter) :
    a.declBytes d = .ok Word.size := by
  obtain ⟨t, ht⟩ := h.exists_declType hd
  have hword := h.typings.signatures d hd t ht
  cases d with
  | proto | function => exact hrole.elim
  | typed mark role name type =>
    obtain rfl : role = .parameter := hrole
    rw [Analysis.declBytes, Analysis.declType, ht]
    exact congrArg Except.ok (Registry.bytes_of_isWord hword)

theorem bytes_result {d : Decl} (hd : p.Has (.decl d)) (hfunction : d.isFunction) {t : TypeId}
    (ht : a.declType d = .ok t) : a.registry.isVoid t ∨ a.registry.bytes t = Word.size := by
  have hsignature := h.typings.signatures d hd t (orFault_eq_ok.mp ht)
  cases d with
  | typed => cases hfunction
  | proto | function => exact hsignature.symm.imp_right Registry.bytes_of_isWord

end Analyzed

end Program

end MmixCompiler
