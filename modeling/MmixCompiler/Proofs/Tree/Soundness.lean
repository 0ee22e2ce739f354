import MmixCompiler.Proofs.Tree.Consumption
import MmixCompiler.Proofs.Tree.Grammar

/-! What the parser reads is spelled as the grammar says. -/

namespace MmixCompiler

namespace Grammar

open Parse

section Tables
variable {k : Token.Kind} {op : BinaryOp}

theorem multiplicative_eq_some : multiplicative k = some op ↔ op.precedence = .product ∧ op.token = k := by
  unfold multiplicative
  split <;> cases op <;> simp_all [BinaryOp.precedence, BinaryOp.token, eq_comm]

theorem additive_eq_some : additive k = some op ↔ op.precedence = .sum ∧ op.token = k := by
  unfold additive
  split <;> cases op <;> simp_all [BinaryOp.precedence, BinaryOp.token, eq_comm]

theorem relational_eq_some : relational k = some op ↔ op.precedence = .comparison ∧ op.token = k := by
  unfold relational
  split <;> cases op <;> simp_all [BinaryOp.precedence, BinaryOp.token, eq_comm]

theorem conjunctive_eq_some : conjunctive k = some op ↔ op.precedence = .conjunction ∧ op.token = k := by
  unfold conjunctive
  split <;> cases op <;> simp_all [BinaryOp.precedence, BinaryOp.token, eq_comm]

theorem disjunctive_eq_some : disjunctive k = some op ↔ op.precedence = .disjunction ∧ op.token = k := by
  unfold disjunctive
  split <;> cases op <;> simp_all [BinaryOp.precedence, BinaryOp.token, eq_comm]

theorem signs_eq_some {op : UnaryOp} : signs k = some op ↔ op.token = k := by
  unfold signs
  split <;> cases op <;> simp_all [UnaryOp.token, eq_comm]

theorem literal_eq_some {value : Literal} : literal? k = some value ↔ value.token = k := by
  constructor
  · intro h
    cases k with
    | keyword w => cases w <;> cases h <;> rfl
    | _ => cases h <;> rfl
  · rintro rfl
    rcases value with v | v | (_ | _) | _ | _ | v <;> rfl

end Tables

theorem token_ne_eos (op : BinaryOp) : op.token ≠ .eos := by
  cases op <;> simp [BinaryOp.token]

theorem literal_token_ne_eos (value : Literal) : value.token ≠ .eos := by
  rcases value with v | v | (_ | _) | _ | _ | v <;> simp [Literal.token]

theorem exists_type : ∃ (t : TypeExpr) (ks : List Token.Kind), Derives (.type t.bare) ks :=
  ⟨.atom .blank .int, _, .atomType⟩

theorem exists_expr (ℓ : Precedence) : ∃ (e : Expr) (ks : List Token.Kind), Derives (.expr ℓ e.bare) ks := by
  refine ⟨.lit .blank .none, [.keyword .none], ?_⟩
  cases ℓ <;> repeat first | exact .lit | refine .tighter rfl ?_

theorem exists_decl : ∃ (d : Decl) (ks : List Token.Kind), Derives (.decl d.bare) ks :=
  ⟨.typed .blank .variable "x" (.atom .blank .int), _, .var .atomType⟩

theorem decl_ne_nil {d : Decl} {ks : List Token.Kind} (h : Derives (.decl d) ks) : ks ≠ [] := by
  cases h <;> simp

section
variable {ι : Type} {d : Bounds ι}

def TakesExpr (ℓ : Precedence) (d : Bounds ι) (x : Parse Expr) (y : ι → Parse Expr) : Prop :=
  Takes d x y fun e ks => Derives (.expr ℓ e.bare) ks

/-- A grammar that reads what it says with all streams that are short enough, and others that read the same. -/
structure Sound (d : Bounds ι) (g : Grammar) (g' : ι → Grammar) : Prop where
  factor : TakesExpr .factor d g.factor fun i => (g' i).factor
  expr : TakesExpr .disjunction d g.expr fun i => (g' i).expr
  type : Takes d g.type (fun i => (g' i).type) fun t ks => Derives (.type t.bare) ks
  stmts : Takes d g.stmts (fun i => (g' i).stmts) fun ss ks => Derives (.stmts (ss.map Stmt.bare)) ks
  decls : Takes d g.decls (fun i => (g' i).decls) fun ds ks => Derives (.decls (ds.map Decl.bare)) ks

variable {x : Parse Expr} {y : ι → Parse Expr} {type : Parse TypeExpr} {type' : ι → Parse TypeExpr}

theorem takes_leftAssoc {ℓ ℓ' : Precedence} {op : Token.Kind → Option BinaryOp}
    (hop : ∀ {k o}, op k = some o ↔ o.precedence = ℓ ∧ o.token = k) (hassoc : ℓ ≠ .comparison)
    (hℓ : ℓ.tighter = some ℓ') (h : TakesExpr ℓ' d x y) :
    TakesExpr ℓ d (leftAssoc x op) fun i => leftAssoc (y i) op := by
  refine h.bind fun first ks hfirst =>
    takes_iterate (fun (e : Expr) ks => Derives (.expr ℓ e.bare) ks) (.tighter hℓ hfirst) fun lhs ks hlhs => ?_
  refine takes_peek_bind fun t => ?_
  split
  · exact (takes_pure (by simpa using hlhs)).after
  · next o ho =>
    obtain ⟨hlevel, htoken⟩ := hop.mp ho
    refine takesAfter_next_bind (htoken ▸ token_ne_eos o) (h.bind fun rhs ks' hrhs => ?_)
    refine takes_mark fun m => ⟨by simp, ?_⟩
    rw [← htoken, List.append_nil]
    exact .binary hlevel hassoc hℓ hlhs hrhs

theorem takes_sum (h : TakesExpr .factor d x y) : TakesExpr .sum d (sum x) fun i => sum (y i) :=
  takes_leftAssoc additive_eq_some (by simp) rfl
    (takes_leftAssoc multiplicative_eq_some (by simp) rfl h)

theorem takes_comparison (h : TakesExpr .factor d x y) :
    TakesExpr .comparison d (comparison x) fun i => comparison (y i) := by
  refine (takes_sum h).bind fun lhs ks hlhs => takes_peek_bind fun t => ?_
  split
  · exact (takes_pure (by simpa using .tighter rfl hlhs)).after
  · next op hop =>
    obtain ⟨hlevel, htoken⟩ := relational_eq_some.mp hop
    refine takesAfter_next_bind (htoken ▸ token_ne_eos op) ((takes_sum h).bind fun rhs ks' hrhs => ?_)
    refine takes_mark fun m => ?_
    rw [← htoken, List.append_nil]
    exact .comparison hlevel hlhs hrhs

theorem takes_exprRule (h : TakesExpr .factor d x y) : TakesExpr .disjunction d (exprRule x) fun i => exprRule (y i) :=
  takes_enter_bind <| takes_leftAssoc disjunctive_eq_some (by simp) rfl <|
    takes_leftAssoc conjunctive_eq_some (by simp) rfl (takes_comparison h)

/-- A name with its type is the first of a list, or one more. -/
theorem takes_typedName {role : Role} {at_ : Position} (h : Takes d type type' fun t ks => Derives (.type t.bare) ks) :
    Takes d (typedName role type at_) (fun i => typedName role (type' i) at_) fun d ks => ∃ name t ks',
      d.bare = .typed .blank role name t ∧ ks = .ident name :: .punct ':' :: ks' ∧ Derives (.type t) ks' := by
  refine takes_identifier_bind fun name => takes_symbol_bind (h.bind fun t ks ht => ?_)
  exact takes_mark fun m => ⟨name, t.bare, ks, rfl, by simp, ht⟩

theorem takes_typedNames {role : Role} (h : Takes d type type' fun t ks => Derives (.type t.bare) ks) :
    Takes d (typedNames role type) (fun i => typedNames role (type' i)) fun ds ks =>
      Derives (.names role (ds.map Decl.bare)) ks := by
  refine takes_peek_bind fun t => ((takes_typedName h).bind fun d ks hd => ?_).after
  obtain ⟨name, t, ks', hbare, rfl, ht⟩ := hd
  refine takes_iterate (fun (ds : List Decl) ks => Derives (.names role (ds.map Decl.bare)) ks)
    (by simpa [hbare] using .namesOne ht) fun ds ks hds => ?_
  refine takes_sees_bind (fun t htok => ?_) (takes_pure (by simpa using hds))
  refine takesAfter_next_bind (by simp [htok]) (takes_peek_bind fun _ => Takes.after ?_)
  refine (takes_typedName h).bind fun d ks₁ hd => takes_pure ⟨by simp, ?_⟩
  obtain ⟨name, t, ks', hbare, rfl, ht⟩ := hd
  simpa [hbare, htok] using hds.namesMore ht

end

section
variable {ι : Type} {d : Bounds ι} {g : Grammar} {g' : ι → Grammar} (hg : Sound d g g')
include hg

theorem takes_typeRule :
    Takes d.succ (typeRule g) (fun i => typeRule (g' i)) fun t ks => Derives (.type t.bare) ks := by
  refine takes_enter_bind (takes_next_bind fun t => ?_)
  split
  iterate 4
    next hk => exact TakesNext.take (by simp [hk]) (takes_mark fun m => hk ▸ .atomType)
  · next name hk => exact TakesNext.take (by simp [hk]) (takes_mark fun m => hk ▸ .named)
  · next hk =>
    refine TakesNext.take (by simp [hk]) (hg.type.bind fun inner ks hinner => takes_symbol_bind (takes_pure ?_))
    exact hk ▸ .typeParens hinner
  · next hk =>
    refine TakesNext.take (by simp [hk]) (takes_symbol_bind
      (hg.expr.bind fun length ks hlength => takes_symbol_bind ?_))
    refine hg.type.bind fun element ks' helement => takes_mark fun m => ?_
    simpa [hk] using hlength.arr helement
  · next hk =>
    refine TakesNext.take (by simp [hk]) (hg.type.bind fun target ks htarget => takes_mark fun m => ?_)
    simpa [hk] using htarget.ptr
  · next hk =>
    refine TakesNext.take (by simp [hk]) (takes_symbol_bind ((takes_typedNames hg.type).bind fun ds ks hds => ?_))
    refine takes_symbol_bind (takes_mark fun m => ?_)
    simpa [hk, TypeExpr.bare] using hds.record
  · exact .reject rfl (fun _ => rfl) exists_type

theorem takes_argsRule : Takes d (argsRule g) (fun i => argsRule (g' i)) fun es ks =>
    ∃ ks', ks = ks' ++ [.punct ')'] ∧ Derives (.args (es.map Expr.bare)) ks' := by
  refine takes_sees_bind (fun t ht => Takes.after ?_) ?_
  · exact takes_symbol_bind (takes_pure ⟨[], rfl, .argsNone⟩)
  · refine hg.expr.bind fun first ks hfirst => ?_
    refine (takes_iterate (fun (es : List Expr) ks => Derives (.exprs (es.map Expr.bare)) ks)
      (by simpa using .exprsOne hfirst) fun es ks hes => ?_).bind fun es ks' hes => ?_
    · refine takes_sees_bind (fun t ht => ?_) (takes_pure (by simpa using hes))
      refine takesAfter_next_bind (by simp [ht]) (hg.expr.bind fun e ks' he => takes_pure ⟨by simp, ?_⟩)
      simpa [ht] using hes.exprsMore he
    · exact takes_symbol_bind (takes_pure ⟨ks ++ ks', by simp, .argsSome hes⟩)

theorem takes_primaryRule : TakesExpr .atom d.succ (primaryRule g) fun i => primaryRule (g' i) := by
  refine takes_enter_bind (takes_next_bind fun t => ?_)
  split
  · next value hvalue =>
    have hk := literal_eq_some.mp hvalue
    exact TakesNext.take (hk ▸ literal_token_ne_eos value) (takes_mark fun m => hk ▸ .lit)
  · split
    · next name hk =>
      refine TakesNext.take (by simp [hk]) (takes_sees_bind (fun t' ht' => ?_) ?_)
      · refine takesAfter_next_bind (by simp [ht']) ((takes_argsRule hg).bind fun es ks hes => ?_)
        obtain ⟨ks', rfl, hes⟩ := hes
        refine takes_mark fun m => ?_
        simpa [hk, ht', Expr.bare] using hes.call
      · exact takes_mark fun m => hk ▸ .name
    · next hk =>
      refine TakesNext.take (by simp [hk]) (hg.expr.bind fun value ks hvalue => takes_sees_bind (fun t' ht' => ?_) ?_)
      · refine takesAfter_next_bind (by simp [ht']) (hg.type.bind fun type ks' htype => ?_)
        refine takes_symbol_bind (takes_mark fun m => ?_)
        simpa [hk, ht'] using hvalue.cast htype
      · exact takes_symbol_bind (takes_pure (by simpa [hk] using hvalue.parens))
    · next hk =>
      refine TakesNext.take (by simp [hk]) (hg.stmts.bind fun ss ks hss => takes_symbol_bind ?_)
      refine hg.expr.bind fun value ks' hvalue => ?_
      have hblock : ∀ (ds : List Decl) ks'', Derives (.scope (ds.map Decl.bare)) ks'' →
          let close : Parse Expr := do
            symbol '\x7d'
            return .block (← mark t.start) ss value ds
          Takes d close (fun _ => close) fun e ks₁ => Derives (.expr .atom e.bare)
            (.punct '\x7b' :: (ks ++ .punct ':' :: (ks' ++ (ks'' ++ ks₁)))) := fun ds ks'' hds => by
        refine takes_symbol_bind (takes_mark fun m => ?_)
        simpa using hss.block hvalue hds
      refine takes_sees_bind (fun t' ht' => ?_) ?_
      · refine takesAfter_next_bind (by simp [ht']) (hg.decls.bind fun ds ks'' hds => ?_)
        simpa [hk, ht'] using hblock ds _ hds.scopeSome
      · simpa [hk] using hblock [] [] .scopeNone
    · exact .reject rfl (fun _ => rfl) (exists_expr .atom)

theorem takes_selectorRule : TakesExpr .selection d.succ (selectorRule g) fun i => selectorRule (g' i) := by
  refine (takes_primaryRule hg).bind fun first ks hfirst => takes_iterate
    (fun (e : Expr) ks => Derives (.expr .selection e.bare) ks) (.tighter rfl hfirst) fun e ks he => ?_
  refine takes_peek_bind fun t => ?_
  split
  · next hk =>
    refine takesAfter_next_nested (by simp [hk]) (hg.expr.bind fun index ks' hindex => ?_)
    refine takes_symbol_bind (takes_mark fun m => ⟨by simp, ?_⟩)
    simpa [hk] using he.index hindex
  · next hk =>
    refine takesAfter_next_bind (by simp [hk]) (takes_identifier_bind fun name => ?_)
    refine takes_mark fun m => ⟨by simp, ?_⟩
    simpa [hk] using he.field
  · exact (takes_pure (by simpa using he)).after

theorem takes_factorRule : TakesExpr .factor d.succ (factorRule g) fun i => factorRule (g' i) := by
  refine takes_enter_bind (takes_peek_bind fun t => ?_)
  split
  · next op hop =>
    have htoken := signs_eq_some.mp hop
    refine takesAfter_next_nested (by cases op <;> simp [← htoken, UnaryOp.token])
      (hg.factor.bind fun operand ks hoperand => takes_mark fun m => ?_)
    simpa [← htoken] using hoperand.unary
  · split
    · next hk =>
      refine takesAfter_next_nested (by simp [hk]) (takes_symbol_bind (hg.type.bind fun type ks htype => ?_))
      refine takes_symbol_bind (takes_mark fun m => ?_)
      simpa [hk] using htype.new
    · next hk =>
      refine takesAfter_next_nested (by simp [hk]) (takes_symbol_bind (hg.expr.bind fun value ks hvalue => ?_))
      refine takes_symbol_bind (takes_mark fun m => ?_)
      simpa [hk] using hvalue.del
    · exact ((takes_selectorRule hg).mono fun e ks he => .tighter rfl he).after

variable {expr : Parse Expr} {expr' : ι → Parse Expr}

section

variable (hexpr : TakesExpr .disjunction d.succ expr expr')

include hexpr

theorem takes_stmtRule :
    Takes d.succ (stmtRule expr g) (fun i => stmtRule (expr' i) (g' i)) fun s ks => Derives (.stmt s.bare) ks := by
  refine takes_enter_bind (takes_peek_bind fun t => ?_)
  split
  · next hk =>
    refine takesAfter_next_nested (by simp [hk]) (hg.expr.bind fun test ks htest => takes_word_bind ?_)
    refine hg.stmts.bind fun yes ks' hyes => ?_
    have hcond : ∀ (no : List Stmt) ks'', Derives (.otherwise (no.map Stmt.bare)) ks'' →
        let close : Parse Stmt := do
          word .end
          return .cond (← mark t.start) test yes no
        Takes d close (fun _ => close) fun s ks₁ => Derives (.stmt s.bare)
          (.keyword .if :: (ks ++ .keyword .then :: (ks' ++ (ks'' ++ ks₁)))) := fun no ks'' hno => by
      refine takes_word_bind (takes_mark fun m => ?_)
      simpa using htest.cond hyes hno
    refine takes_sees_bind (fun t' ht' => ?_) ?_
    · refine takesAfter_next_bind (by simp [ht']) (hg.stmts.bind fun no ks'' hno => ?_)
      simpa [hk, ht'] using hcond no _ hno.otherwiseSome
    · simpa [hk] using hcond [] [] .otherwiseNone
  · next hk =>
    refine takesAfter_next_nested (by simp [hk]) (hg.expr.bind fun test ks htest => takes_word_bind ?_)
    refine hg.stmts.bind fun body ks' hbody => takes_word_bind (takes_mark fun m => ?_)
    simpa [hk] using htest.loop hbody
  · refine (hexpr.bind fun dst ks hdst => takes_sees_bind (fun t' ht' => ?_) ?_).after
    · refine takesAfter_next_nested (by simp [ht']) (hg.expr.bind fun src ks' hsrc => ?_)
      refine takes_mark fun m => ?_
      simpa [ht'] using hdst.assign hsrc
    · exact takes_mark fun m => by simpa using hdst.expr

theorem takes_closedStmt :
    Takes d.succ (closedStmt expr g) (fun i => closedStmt (expr' i) (g' i)) fun s ks => ∃ ks',
      ks = ks' ++ [.punct ';'] ∧ Derives (.stmt s.bare) ks' :=
  (takes_stmtRule hg hexpr).bind fun _ ks hs => takes_symbol_bind (takes_pure ⟨ks, rfl, hs⟩)

theorem takes_stmtsRule :
    Takes d.succ (stmtsRule expr g) (fun i => stmtsRule (expr' i) (g' i)) fun ss ks =>
      Derives (.stmts (ss.map Stmt.bare)) ks := by
  apply (takes_closedStmt hg hexpr).bind
  rintro s ks ⟨ks', hks, hs⟩
  refine takes_iterate (fun (ss : List Stmt) ks => Derives (.stmts (ss.map Stmt.bare)) ks)
    (by simpa [hks] using hs.stmtsOne) fun ss ks hss => ?_
  refine takes_peek_bind fun t => Takes.after ?_
  split
  · exact takes_pure (by simpa using hss)
  · apply (takes_closedStmt hg hexpr).bind
    rintro s ks₁ ⟨ks', hks, hs⟩
    refine takes_pure ⟨by simp [hks], ?_⟩
    simpa [hks] using hss.stmtsMore hs

end

theorem takes_paramsRule :
    Takes d (paramsRule g) (fun i => paramsRule (g' i)) fun ds ks => Derives (.params (ds.map Decl.bare)) ks := by
  refine takes_sees_bind (fun t ht => ?_) ?_
  · exact (takes_pure .paramsNone).after
  · exact (takes_typedNames hg.type).mono fun ds ks hds => hds.paramsSome

/-- A function is a declaration but for its keyword and its semicolon. -/
theorem takes_functionRule (at_ : Position) :
    Takes d (functionRule g at_) (fun i => functionRule (g' i) at_) fun d ks =>
    Derives (.decl d.bare) (.keyword .fun :: (ks ++ [.punct ';'])) := by
  refine takes_identifier_bind fun name => takes_symbol_bind ((takes_paramsRule hg).bind
    fun params ks hparams => takes_symbol_bind (takes_symbol_bind ?_))
  refine hg.type.bind fun result ks' hresult => takes_sees_bind (fun t ht => ?_) ?_
  · refine takesAfter_next_bind (by simp [ht]) (hg.expr.bind fun body ks'' hbody => ?_)
    refine takes_mark fun m => ?_
    simpa [ht] using hparams.function hresult hbody
  · refine takes_mark fun m => ?_
    simpa using hparams.proto hresult

theorem takes_declRule :
    Takes d.succ (declRule g) (fun i => declRule (g' i)) fun d ks => Derives (.decl d.bare) ks := by
  refine takes_enter_bind (takes_next_bind fun t => ?_)
  have hclose : ∀ {x : Parse Decl} {y : ι → Parse Decl}, t.kind ≠ .eos →
      (Takes d x y fun d ks => Derives (.decl d.bare) (t.kind :: (ks ++ [.punct ';']))) →
      let close (x : Parse Decl) : Parse Decl := do
        let d ← x
        symbol ';'
        return d
      TakesNext t d (close x) (fun i => close (y i)) fun d ks => Derives (.decl d.bare) ks := fun hne h =>
    .take hne (h.bind fun d ks hd => takes_symbol_bind (takes_pure hd))
  split
  · next hk =>
    refine hclose (by simp [hk]) ((takes_typedName hg.type).mono ?_)
    rintro d ks ⟨name, t, ks', hbare, hks, ht⟩
    simpa [hk, hbare, hks] using ht.typ
  · next hk =>
    refine hclose (by simp [hk]) ((takes_typedName hg.type).mono ?_)
    rintro d ks ⟨name, t, ks', hbare, hks, ht⟩
    simpa [hk, hbare, hks] using ht.var
  · next hk => exact hclose (by simp [hk]) (hk ▸ takes_functionRule hg t.start)
  · exact .reject rfl (fun _ => rfl) exists_decl

theorem takes_declsRule :
    Takes d.succ (declsRule g) (fun i => declsRule (g' i)) fun ds ks => Derives (.decls (ds.map Decl.bare)) ks := by
  refine (takes_declRule hg).bind fun d ks hd =>
    takes_iterate (fun (ds : List Decl) ks => Derives (.decls (ds.map Decl.bare)) ks)
      (by simpa using hd.declsOne) fun ds ks hds => ?_
  refine takes_peek_bind fun t => Takes.after ?_
  split
  · refine (takes_declRule hg).bind fun d ks' hd => takes_pure ⟨fun _ => by simpa using decl_ne_nil hd, ?_⟩
    simpa using hds.declsMore hd
  · exact takes_pure (by simpa using hds)

end

/-- A grammar reads what it says with the streams that are shorter than its depth, and no other depth reads them in
another way. -/
theorem sound_ofDepth (n : Nat) : Sound ⟨n, id⟩ (ofDepth n) ofDepth := by
  induction n with
  | zero =>
    have hnone : ∀ {α : Type} {x : Parse α} {y : Nat → Parse α} {post : α → List Token.Kind → Prop},
        Takes ⟨0, id⟩ x y post := fun _ _ hn => absurd hn (Nat.not_lt_zero _)
    exact ⟨hnone, hnone, hnone, hnone, hnone⟩
  | succ n ih =>
    have hfactor := takes_factorRule ih
    have hexpr := takes_exprRule hfactor
    have hdepth : ∀ {α : Type} {x : Parse α} {part : Grammar → Parse α} {post : α → List Token.Kind → Prop},
        Takes (Bounds.succ ⟨n, id⟩) x (fun m => part (ofDepth (m + 1))) post →
          Takes ⟨n + 1, id⟩ x (fun m => part (ofDepth m)) post := by
      intro α x part post h
      refine h.imp (Nat.le_refl _) fun m s hs => ?_
      obtain ⟨k, rfl⟩ : ∃ k, m = k + 1 := ⟨m - 1, by simp only [id] at hs; omega⟩
      exact ⟨k, hs, rfl⟩
    exact ⟨hdepth hfactor, hdepth hexpr, hdepth (takes_typeRule ih), hdepth (takes_stmtsRule ih hexpr),
      hdepth (takes_declsRule ih)⟩

end Grammar
end MmixCompiler
