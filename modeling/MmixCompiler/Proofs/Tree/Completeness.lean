import MmixCompiler.Proofs.Tree.Soundness

/-! What the grammar spells is read by the parser, whatever comes after it that cannot go on with
it. -/

namespace MmixCompiler

variable {ℓ ℓ' : Precedence} {k : Token.Kind} {factor expr : Parse Expr} {ds : List Decl}

/-- The level of expressions that the token goes on with. -/
def Token.Kind.joins : Token.Kind → Option Precedence
  | .punct '|' | .punct '^' => some .disjunction
  | .punct '&' => some .conjunction
  | .eq | .ne | .le | .ge | .punct '<' | .punct '>' => some .comparison
  | .punct '+' | .punct '-' => some .sum
  | .punct '*' | .punct '/' | .punct '%' => some .product
  | .punct '[' | .punct '.' => some .selection
  | .punct '(' => some .atom
  | _ => none

theorem BinaryOp.joins_token (op : BinaryOp) : op.token.joins = some op.precedence := by
  cases op <;> rfl

def Precedence.rank : Precedence → Nat
  | .disjunction => 0
  | .conjunction => 1
  | .comparison => 2
  | .sum => 3
  | .product => 4
  | .factor => 5
  | .selection => 6
  | .atom => 7

theorem Precedence.rank_tighter (h : ℓ.tighter = some ℓ') : ℓ'.rank = ℓ.rank + 1 := by
  cases ℓ <;> cases h <;> rfl

/-- The token does not go on with an expression of the level. -/
def Precedence.Stops (ℓ : Precedence) (k : Token.Kind) : Prop := ∀ ℓ' ∈ k.joins, ℓ'.rank < ℓ.rank

@[simp] theorem Precedence.stops_token {op : BinaryOp} : ℓ.Stops op.token ↔ op.precedence.rank < ℓ.rank := by
  simp [Precedence.Stops, op.joins_token]

/-- What comes next does not go on with an expression of the level. -/
def Stream.Ends (s : Stream) (ℓ : Precedence) : Prop := ∃ k, s.head.Shows k ∧ ℓ.Stops k

theorem Stream.Ends.tighter {s : Stream} (h : s.Ends ℓ) (hℓ : ℓ.tighter = some ℓ') : s.Ends ℓ' := by
  obtain ⟨k, hk, hstops⟩ := h
  have := Precedence.rank_tighter hℓ
  exact ⟨k, hk, fun ℓ'' h'' => by have := hstops ℓ'' h''; omega⟩

section
variable {s rest : Stream} {k : Token.Kind} {ks : List Token.Kind} {ℓ : Precedence}

theorem Stream.Begins.shows (h : s.Begins (k :: ks) rest) : s.head.Shows k := by
  cases h with
  | cons _ hk _ => exact hk

theorem Stream.Begins.ends (h : s.Begins (k :: ks) rest) (hk : k.joins = none) : s.Ends ℓ :=
  ⟨k, h.shows, by simp [Precedence.Stops, hk]⟩

end

namespace Grammar

open Parse

def startsAtom : Token.Kind → Bool
  | .ident _ | .int _ | .char _ | .str _ | .punct '(' | .punct '\x7b' => true
  | .keyword .true | .keyword .false | .keyword .none | .keyword .null => true
  | _ => false

def startsExpr : Token.Kind → Bool
  | .punct '+' | .punct '-' | .punct '!' | .punct '$' | .punct '@' => true
  | .keyword .new | .keyword .del => true
  | k => startsAtom k

def startsStmt : Token.Kind → Bool
  | .keyword .if | .keyword .while => true
  | k => startsExpr k

theorem startsExpr_of_startsAtom (h : startsAtom k) : startsExpr k := by
  unfold startsExpr
  split <;> simp_all

theorem startsStmt_of_startsExpr (h : startsExpr k) : startsStmt k := by
  unfold startsStmt
  split <;> simp_all

end Grammar

open Grammar Parse

namespace Phrase

/-- Phrases that may have no token. -/
def Optional : Phrase → Prop
  | .args _ | .params _ | .otherwise _ | .scope _ => True
  | _ => False

/-- The tokens that a phrase may begin with, where a parser has to know. -/
def First : Phrase → Token.Kind → Prop
  | .expr .atom _, k | .expr .selection _, k => startsAtom k
  | .expr _ _, k | .exprs _, k => startsExpr k
  | .names _ _, k => ∃ name, k = .ident name
  | .stmt _, k | .stmts _, k => startsStmt k
  | .decl _, k | .decls _, k => beginsDecl k
  | _, _ => True

theorem First.tighter {e : Expr} (hℓ : ℓ.tighter = some ℓ') (h : First (.expr ℓ' e) k) : First (.expr ℓ e) k := by
  cases ℓ <;> cases hℓ
  case factor => exact startsExpr_of_startsAtom h
  all_goals exact h

end Phrase

theorem Derives.first {p : Phrase} {ks : List Token.Kind} (h : Derives p ks) (hp : ¬p.Optional) :
    ∃ k ks', ks = k :: ks' ∧ p.First k := by
  induction h with
  | tighter hℓ _ ih =>
    obtain ⟨k, ks', rfl, hk⟩ := ih id
    exact ⟨k, ks', rfl, hk.tighter hℓ⟩
  | @binary _ ℓ _ _ _ _ _ _ _ _ _ _ ih _ =>
    obtain ⟨k, ks', rfl, hk⟩ := ih id
    exact ⟨k, _, rfl, by cases ℓ <;> exact hk⟩
  | comparison _ _ _ ih _ | index _ _ ih _ | field _ ih | exprsMore _ _ ih _ | namesMore _ _ ih _
  | stmtsMore _ _ ih _ | declsMore _ _ ih _ | exprsOne _ ih | stmtsOne _ ih | declsOne _ ih =>
    obtain ⟨k, ks', rfl, hk⟩ := ih id
    exact ⟨k, _, rfl, hk⟩
  | expr _ ih | assign _ _ ih _ =>
    obtain ⟨k, ks', rfl, hk⟩ := ih id
    exact ⟨k, _, rfl, startsStmt_of_startsExpr hk⟩
  | @unary op => exact ⟨_, _, rfl, by cases op <;> rfl⟩
  | @lit value => exact ⟨_, _, rfl, by rcases value with v | v | (_ | _) | _ | _ | v <;> rfl⟩
  | namesOne => exact ⟨_, _, rfl, _, rfl⟩
  | atomType | named | typeParens | arr | ptr | record => exact ⟨_, _, rfl, trivial⟩
  | new | del | name | call | parens | cast | block | cond | loop | typ | var | proto | function =>
    exact ⟨_, _, rfl, rfl⟩
  | argsNone | argsSome | otherwiseNone | otherwiseSome | paramsNone | paramsSome | scopeNone | scopeSome =>
    exact absurd trivial hp

/-- Inversion at the levels whose operators group from the left. -/
theorem Derives.left_cases {e : Expr} {ks : List Token.Kind}
    (h : Derives (.expr ℓ e) ks) (hℓ : ℓ.tighter = some ℓ') (hassoc : ℓ ≠ .comparison)
    (hop : ∃ op : BinaryOp, op.precedence = ℓ) :
    Derives (.expr ℓ' e) ks ∨ ∃ op lhs rhs ks₁ ks₂, op.precedence = ℓ ∧ e = .binary .blank op lhs rhs ∧
      ks = ks₁ ++ op.token :: ks₂ ∧ Derives (.expr ℓ lhs) ks₁ ∧ Derives (.expr ℓ' rhs) ks₂ := by
  obtain ⟨op, rfl⟩ := hop
  generalize hlevel : op.precedence = ℓ at *
  cases h with
  | tighter hℓ' h =>
    cases Option.some.inj (hℓ.symm.trans hℓ')
    exact .inl h
  | binary hop _ hℓ' hlhs hrhs =>
    cases Option.some.inj (hℓ.symm.trans hℓ')
    exact .inr ⟨_, _, _, _, _, hop, rfl, rfl, hlhs, hrhs⟩
  | comparison => exact absurd rfl hassoc
  | unary | new | del | index | field | lit | name | call | parens | cast | block =>
    cases op <;> cases hlevel

namespace Grammar

/-- The parser reads the expressions of a level with at most `n` tokens. -/
def AcceptsExpr (n : Nat) (ℓ : Precedence) (x : Parse Expr) : Prop :=
  ∀ {e ks rest}, Derives (.expr ℓ e) ks → rest.Ends ℓ → Within n x ks rest (·.bare = e)

def AcceptsType (n : Nat) (x : Parse TypeExpr) : Prop :=
  ∀ {t ks rest}, Derives (.type t) ks → Within n x ks rest (·.bare = t)

/-- The parsers read phrases with at most `n` tokens. -/
structure Complete (n : Nat) (g : Grammar) : Prop where
  factor : AcceptsExpr n .factor g.factor
  expr : AcceptsExpr n .disjunction g.expr
  type : AcceptsType n g.type
  stmts : ∀ {ss ks rest k}, Derives (.stmts ss) ks → rest.head.Shows k → endsStmts k →
    Within n g.stmts ks rest (·.map Stmt.bare = ss)
  decls : ∀ {ds ks rest k}, Derives (.decls ds) ks → rest.head.Shows k → ¬beginsDecl k →
    Within n g.decls ks rest (·.map Decl.bare = ds)

section
variable {n : Nat} {rest : Stream} {ks : List Token.Kind}

theorem eq_none_of_stops {op : Token.Kind → Option BinaryOp}
    (hop : ∀ {k o}, op k = some o ↔ o.precedence = ℓ ∧ o.token = k) (h : ℓ.Stops k) : op k = none := by
  rw [Option.eq_none_iff_forall_ne_some]
  rintro o ho
  obtain ⟨hlevel, rfl⟩ := hop.mp ho
  simp [hlevel] at h

theorem accepts_leftAssoc {operand : Parse Expr} {op : Token.Kind → Option BinaryOp}
    (hop : ∀ {k o}, op k = some o ↔ o.precedence = ℓ ∧ o.token = k) (hassoc : ℓ ≠ .comparison)
    (hℓ : ℓ.tighter = some ℓ') (hex : ∃ o : BinaryOp, o.precedence = ℓ) (h : AcceptsExpr n ℓ' operand) :
    AcceptsExpr n ℓ (leftAssoc operand op) := by
  intro e ks rest hd hrest
  refine within_loop (L := fun ks e => Derives (.expr ℓ e) ks) (F := fun ks e => Derives (.expr ℓ' e) ks)
    (E := fun lhs ks e => ∃ o rhs ks', o.precedence = ℓ ∧ e = .binary .blank o lhs rhs ∧
      ks = o.token :: ks' ∧ Derives (.expr ℓ' rhs) ks')
    (R := fun st => st.Ends ℓ') ?_ (fun _ _ _ => h) ?_ ?_ (hrest.tighter hℓ) ?_ hd
  · intro ks e hd
    refine (hd.left_cases hℓ hassoc hex).imp_right ?_
    rintro ⟨o, lhs, rhs, ks₁, ks₂, ho, rfl, rfl, hlhs, hrhs⟩
    exact ⟨ks₁, _, lhs, rfl, by simp, hlhs, o, rhs, ks₂, ho, rfl, rfl, hrhs⟩
  · rintro lhs ks e st st' ⟨o, rhs, ks', ho, -, rfl, -⟩ hst
    exact ⟨o.token, hst.shows, by simp [ho, Precedence.rank_tighter hℓ]⟩
  · rintro lhs ks e st ⟨o, rhs, ks', ho, rfl, rfl, hrhs⟩ hst
    refine within_peek_bind (.inl rfl) fun t => ?_
    rw [hop.mpr ⟨ho, rfl⟩]
    refine within_next_bind fun t' => (h hrhs hst).last fun rhs' hrhs' => ?_
    exact within_mark fun m => ⟨_, rfl, by simp [hrhs']⟩
  · intro lhs
    obtain ⟨k, hk, hstops⟩ := hrest
    refine within_peek_bind (.inr ⟨rfl, hk⟩) fun t => ?_
    rw [eq_none_of_stops hop hstops]
    exact within_pure rfl

theorem accepts_sum (h : AcceptsExpr n .factor factor) : AcceptsExpr n .sum (sum factor) :=
  accepts_leftAssoc additive_eq_some (by simp) rfl ⟨.add, rfl⟩
    (accepts_leftAssoc multiplicative_eq_some (by simp) rfl ⟨.mul, rfl⟩ h)

theorem accepts_comparison (h : AcceptsExpr n .factor factor) : AcceptsExpr n .comparison (comparison factor) := by
  intro e ks rest hd hrest
  cases hd with
  | tighter hℓ hd =>
    cases hℓ
    refine (accepts_sum h hd (hrest.tighter rfl)).last fun lhs hlhs => ?_
    obtain ⟨k, hk, hstops⟩ := hrest
    refine within_peek_bind (.inr ⟨rfl, hk⟩) fun t => ?_
    rw [eq_none_of_stops relational_eq_some hstops]
    exact within_pure hlhs
  | binary _ hassoc => exact absurd rfl hassoc
  | @comparison op _ _ _ _ hop hlhs hrhs =>
    refine .bind (fun st hst => accepts_sum h hlhs ?_) fun lhs' hlhs' => ?_
    · exact ⟨op.token, hst.shows, by simp [hop, Precedence.rank]⟩
    · refine within_peek_bind (.inl rfl) fun t => ?_
      rw [relational_eq_some.mpr ⟨hop, rfl⟩]
      refine within_next_bind fun t' => (accepts_sum h hrhs (hrest.tighter rfl)).last fun rhs' hrhs' => ?_
      exact within_mark fun m => by simp [hlhs', hrhs']

theorem accepts_exprRule (h : AcceptsExpr n .factor factor) :
    AcceptsExpr n .disjunction (exprRule factor) := fun hd hrest =>
  within_enter_bind <| accepts_leftAssoc disjunctive_eq_some (by simp) rfl ⟨.or, rfl⟩
    (accepts_leftAssoc conjunctive_eq_some (by simp) rfl ⟨.and, rfl⟩ (accepts_comparison h)) hd hrest

theorem accepts_typedName {role : Role} {type : Parse TypeExpr} {at_ : Position} {name : String}
    {t : TypeExpr} (h : Within n type ks rest (·.bare = t)) :
    Within n (typedName role type at_) (.ident name :: .punct ':' :: ks) rest (·.bare = .typed .blank role name t) :=
  within_identifier_bind (within_symbol_bind (h.last fun t' ht' => within_mark fun m => by simp [ht']))

theorem accepts_typedNames {role : Role} {type : Parse TypeExpr} (h : AcceptsType n type)
    (hd : Derives (.names role ds) ks) (hk : rest.head.Shows k) (hcomma : k ≠ .punct ',') :
    Within n (typedNames role type) ks rest (·.map Decl.bare = ds) := by
  obtain ⟨k₀, ks₀, hks, -⟩ := hd.first id
  refine within_peek_bind (.inl (by rw [hks]; rfl)) fun t => ?_
  refine within_list (L := fun ks ds => Derives (.names role ds) ks) (p := [.punct ','])
    (O := fun ks d => ∃ name t ks', d = .typed .blank role name t ∧ ks = .ident name :: .punct ':' :: ks' ∧
      Derives (.type t) ks')
    (R := fun _ => True) ?_ ?_ (fun _ _ _ _ _ _ => trivial) ?_ trivial ?_ hd
  · intro ks ds hd
    cases hd with
    | namesOne h => exact .inl ⟨_, rfl, _, _, _, rfl, rfl, h⟩
    | namesMore hds h => exact .inr ⟨_, _, _, _, rfl, rfl, by simp, hds, _, _, _, rfl, rfl, h⟩
  · rintro ks d st ⟨name, t, ks', rfl, rfl, ht⟩ -
    exact accepts_typedName (h ht)
  · rintro ds ks d st ⟨name, t, ks', rfl, rfl, ht⟩ -
    refine within_sees_true (.inl rfl) ?_
    rw [if_pos rfl]
    refine within_next_bind fun _ => within_peek_bind (.inl rfl) fun _ => (accepts_typedName (h ht)).last fun d hd => ?_
    exact within_pure ⟨d, rfl, hd⟩
  · exact fun ds => within_sees_false (.inr ⟨rfl, hk⟩) hcomma (within_pure rfl)

section
variable {g : Grammar} (hg : g.Complete n)
include hg

theorem accepts_typeRule : AcceptsType (n + 1) (typeRule g) := by
  intro t ks rest hd
  refine within_enter_bind ?_
  cases hd with
  | @atomType a => exact within_next_bind fun t => by cases a <;> exact within_mark fun m => rfl
  | named => exact within_next_bind fun t => within_mark fun m => rfl
  | typeParens h =>
    refine within_next_nested fun t => .bind (fun st _ => hg.type h) fun inner hinner => ?_
    exact within_symbol_bind (within_pure hinner)
  | arr h ht =>
    refine within_next_nested fun t => within_symbol_bind (.bind (fun st hst => hg.expr h (hst.ends rfl))
      fun length hlength => within_symbol_bind ((hg.type ht).last fun element helement => ?_))
    exact within_mark fun m => by simp [hlength, helement]
  | ptr h =>
    refine within_next_nested fun t => (hg.type h).last fun target htarget => ?_
    exact within_mark fun m => by simp [htarget]
  | record h =>
    refine within_next_nested fun t => within_symbol_bind (.bind (fun st hst =>
      accepts_typedNames hg.type h hst.shows (by simp)) fun components hcomponents => within_symbol_bind ?_)
    exact within_mark fun m => by simp [hcomponents]

theorem accepts_argsRule {es : List Expr} (hd : Derives (.args es) ks) :
    Within n (argsRule g) (ks ++ [.punct ')']) rest (·.map Expr.bare = es) := by
  cases hd with
  | argsNone => exact within_sees_true (.inl rfl) (within_symbol_bind (within_pure rfl))
  | argsSome hd =>
    obtain ⟨k, ks', rfl, hk⟩ := hd.first id
    refine within_sees_false (.inl rfl) (by rintro rfl; cases hk) ?_
    rw [if_neg Bool.false_ne_true, ← bind_assoc]
    refine .bind (Q := (·.map Expr.bare = es)) (fun st hst => ?_) fun args hargs =>
      within_symbol_bind (within_pure hargs)
    refine within_list (L := fun ks es => Derives (.exprs es) ks) (p := [.punct ','])
      (O := fun ks e => Derives (.expr .disjunction e) ks) (R := fun st => st.Ends .disjunction)
      ?_ (fun _ _ _ => hg.expr) (fun _ _ _ _ _ hst => hst.ends rfl) ?_ (hst.ends rfl) ?_ hd
    · intro ks es hd
      cases hd with
      | exprsOne h => exact .inl ⟨_, rfl, h⟩
      | exprsMore hes h => exact .inr ⟨_, _, _, _, rfl, rfl, by simp, hes, h⟩
    · intro es ks e st he hst
      refine within_sees_true (.inl rfl) (within_next_bind fun _ => (hg.expr he hst).last fun e' he' => ?_)
      exact within_pure ⟨e', rfl, he'⟩
    · exact fun es => within_sees_false (.inr ⟨rfl, hst.shows⟩) (by simp) (within_pure rfl)

theorem accepts_primaryRule : AcceptsExpr (n + 1) .atom (primaryRule g) := by
  intro e ks rest hd hrest
  refine within_enter_bind ?_
  cases hd with
  | tighter hℓ => cases hℓ
  | @binary op _ _ _ _ _ _ hop => cases op <;> cases hop
  | lit =>
    refine within_next_bind fun t => ?_
    rw [literal_eq_some.mpr rfl]
    exact within_mark fun m => rfl
  | name =>
    obtain ⟨k, hk, hstops⟩ := hrest
    refine within_next_bind fun t => within_sees_false (.inr ⟨rfl, hk⟩) ?_ (within_mark fun m => rfl)
    rintro rfl
    exact absurd (hstops _ rfl) (Nat.lt_irrefl _)
  | call h =>
    refine within_next_nested fun t => within_sees_true (.inl rfl) (within_next_bind fun _ => ?_)
    exact (accepts_argsRule hg h).last fun args hargs => within_mark fun m => by simp [hargs]
  | parens h =>
    refine within_next_nested fun t => .bind (fun st hst => hg.expr h (hst.ends rfl)) fun value hvalue => ?_
    exact within_sees_false (.inl rfl) (by simp) (within_symbol_bind (within_pure hvalue))
  | cast h ht =>
    rw [List.append_assoc]
    refine within_next_nested fun t => .bind (fun st hst => hg.expr h (hst.ends rfl)) fun value hvalue => ?_
    refine within_sees_true (.inl rfl) (within_next_bind fun _ => .bind (fun st _ => hg.type ht) fun type htype => ?_)
    exact within_symbol_bind (within_mark fun m => by simp [hvalue, htype])
  | block hss h hds =>
    simp only [List.append_assoc]
    refine within_next_nested fun t => .bind (fun st hst => hg.stmts hss hst.shows rfl) fun stmts hstmts =>
      within_symbol_bind ?_
    cases hds with
    | scopeNone =>
      refine .bind (fun st hst => hg.expr h (hst.ends rfl)) fun value hvalue => ?_
      refine within_sees_false (.inl rfl) (by simp) (within_symbol_bind ?_)
      exact within_mark fun m => by simp [hstmts, hvalue]
    | scopeSome hds =>
      refine .bind (fun st hst => hg.expr h (hst.ends rfl)) fun value hvalue => ?_
      refine within_sees_true (.inl rfl) (within_next_bind fun _ => .bind (fun st hst =>
        hg.decls hds hst.shows (by decide)) fun decls hdecls => within_symbol_bind ?_)
      exact within_mark fun m => by simp [hstmts, hvalue, hdecls]

theorem accepts_selectorRule : AcceptsExpr (n + 1) .selection (selectorRule g) := by
  intro e ks rest hd hrest
  refine within_loop (L := fun ks e => Derives (.expr .selection e) ks) (F := fun ks e => Derives (.expr .atom e) ks)
    (E := fun a ks e =>
      (∃ i ks', e = .index .blank a i ∧ ks = .punct '[' :: ks' ++ [.punct ']'] ∧ Derives (.expr .disjunction i) ks') ∨
      ∃ name, e = .field .blank a name ∧ ks = [.punct '.', .ident name])
    (R := fun st => st.Ends .atom) ?_ (fun _ _ _ => accepts_primaryRule hg) ?_ ?_ (hrest.tighter rfl) ?_ hd
  · intro ks e hd
    cases hd with
    | tighter hℓ hd =>
      cases hℓ
      exact .inl hd
    | @binary op _ _ _ _ _ _ hop => cases op <;> cases hop
    | index h hi => exact .inr ⟨_, _, _, List.append_assoc .., by simp, h, .inl ⟨_, _, rfl, rfl, hi⟩⟩
    | field h => exact .inr ⟨_, _, _, rfl, by simp, h, .inr ⟨_, rfl, rfl⟩⟩
  · rintro a ks e st st' (⟨i, ks', -, rfl, -⟩ | ⟨name, -, rfl⟩) hst
    · exact ⟨_, hst.shows, by rintro ℓ ⟨⟩; decide⟩
    · exact ⟨_, hst.shows, by rintro ℓ ⟨⟩; decide⟩
  · rintro a ks e st (⟨i, ks', rfl, rfl, hi⟩ | ⟨name, rfl, rfl⟩) -
    · refine within_peek_bind (.inl rfl) fun t => within_next_nested fun _ =>
        .bind (fun st hst => hg.expr hi (hst.ends rfl)) fun index hindex => within_symbol_bind ?_
      exact within_mark fun m => ⟨_, rfl, by simp [hindex]⟩
    · refine within_peek_bind (.inl rfl) fun t => within_next_bind fun _ => within_identifier_bind ?_
      exact within_mark fun m => ⟨_, rfl, by simp⟩
  · intro a
    obtain ⟨k, hk, hstops⟩ := hrest
    refine within_peek_bind (.inr ⟨rfl, hk⟩) fun t => ?_
    dsimp only
    split
    · exact absurd (hstops _ rfl) (Nat.lt_irrefl _)
    · exact absurd (hstops _ rfl) (Nat.lt_irrefl _)
    · exact within_pure rfl

theorem accepts_factorRule : AcceptsExpr (n + 1) .factor (factorRule g) := by
  intro e ks rest hd hrest
  refine within_enter_bind ?_
  cases hd with
  | tighter hℓ hd =>
    cases hℓ
    obtain ⟨k, ks', rfl, hk⟩ := hd.first id
    refine within_peek_bind (.inl rfl) fun t => ?_
    have hsign : signs k = none := by
      rw [Option.eq_none_iff_forall_ne_some]
      rintro op hop
      obtain rfl := signs_eq_some.mp hop
      cases op <;> cases hk
    rw [hsign]
    dsimp only
    split
    · cases hk
    · cases hk
    · exact accepts_selectorRule hg hd (hrest.tighter rfl)
  | @binary op _ _ _ _ _ _ hop => cases op <;> cases hop
  | unary h =>
    refine within_peek_bind (.inl rfl) fun t => ?_
    rw [signs_eq_some.mpr rfl]
    refine within_next_nested fun _ => (hg.factor h hrest).last fun operand hop => ?_
    exact within_mark fun m => by simp [hop]
  | new h =>
    refine within_peek_bind (.inl rfl) fun t => within_next_nested fun _ => within_symbol_bind
      (.bind (fun st _ => hg.type h) fun type htype => within_symbol_bind ?_)
    exact within_mark fun m => by simp [htype]
  | del h =>
    refine within_peek_bind (.inl rfl) fun t => within_next_nested fun _ => within_symbol_bind
      (.bind (fun st hst => hg.expr h (hst.ends rfl)) fun value hvalue => within_symbol_bind ?_)
    exact within_mark fun m => by simp [hvalue]

section

variable (hexpr : AcceptsExpr (n + 1) .disjunction expr)

include hexpr

theorem accepts_stmtRule {s : Stmt} (hd : Derives (.stmt s) ks) (hrest : rest.head.Shows (.punct ';')) :
    Within (n + 1) (stmtRule expr g) ks rest (·.bare = s) := by
  have hends : rest.Ends .disjunction := ⟨_, hrest, by rintro ℓ ⟨⟩⟩
  refine within_enter_bind ?_
  cases hd with
  | expr h =>
    obtain ⟨k, ks', hks, hk⟩ := h.first id
    refine within_peek_bind (.inl (by rw [hks]; rfl)) fun t => ?_
    dsimp only
    split
    · cases hk
    · cases hk
    · refine (hexpr h hends).last fun dst hdst => within_sees_false (.inr ⟨rfl, hrest⟩) (by simp) ?_
      exact within_mark fun m => by simp [hdst]
  | assign hdst hsrc =>
    obtain ⟨k, ks₀, hks, hk⟩ := hdst.first id
    refine within_peek_bind (.inl (by rw [hks]; rfl)) fun t => ?_
    dsimp only
    split
    · cases hk
    · cases hk
    · refine .bind (fun st hst => hexpr hdst (hst.ends rfl)) fun dst' hdst' => ?_
      refine within_sees_true (.inl rfl) (within_next_nested fun _ => (hg.expr hsrc hends).last fun src' hsrc' => ?_)
      exact within_mark fun m => by simp [hdst', hsrc']
  | cond h hyes hno =>
    simp only [List.append_assoc]
    refine within_peek_bind (.inl rfl) fun t => within_next_nested fun _ =>
      .bind (fun st hst => hg.expr h (hst.ends rfl)) fun test htest => within_word_bind ?_
    cases hno with
    | otherwiseNone =>
      refine .bind (fun st hst => hg.stmts hyes hst.shows rfl) fun yes' hyes' => ?_
      refine within_sees_false (.inl rfl) (by simp) (within_word_bind ?_)
      exact within_mark fun m => by simp [htest, hyes']
    | otherwiseSome hno =>
      refine .bind (fun st hst => hg.stmts hyes hst.shows rfl) fun yes' hyes' => ?_
      refine within_sees_true (.inl rfl) (within_next_bind fun _ => .bind (fun st hst =>
        hg.stmts hno hst.shows rfl) fun no' hno' => within_word_bind ?_)
      exact within_mark fun m => by simp [htest, hyes', hno']
  | loop h hss =>
    simp only [List.append_assoc]
    refine within_peek_bind (.inl rfl) fun t => within_next_nested fun _ =>
      .bind (fun st hst => hg.expr h (hst.ends rfl)) fun test htest => within_word_bind ?_
    refine .bind (fun st hst => hg.stmts hss hst.shows rfl) fun body hbody => within_word_bind ?_
    exact within_mark fun m => by simp [htest, hbody]

theorem accepts_closedStmt {s : Stmt}
    (hd : Derives (.stmt s) ks) : Within (n + 1) (closedStmt expr g) (ks ++ [.punct ';']) rest (·.bare = s) :=
  .bind (fun _ hst => accepts_stmtRule hg hexpr hd hst.shows) fun _ hs => within_symbol_bind (within_pure hs)

theorem accepts_stmtsRule
    {ss : List Stmt} (hd : Derives (.stmts ss) ks) (hk : rest.head.Shows k) (hends : endsStmts k) :
    Within (n + 1) (stmtsRule expr g) ks rest (·.map Stmt.bare = ss) := by
  refine within_list (L := fun ks ss => Derives (.stmts ss) ks) (p := [])
    (O := fun ks s => ∃ ks', ks = ks' ++ [.punct ';'] ∧ Derives (.stmt s) ks')
    (R := fun _ => True) ?_ ?_ (fun _ _ _ _ _ _ => trivial) ?_ trivial ?_ hd
  · intro ks ss hd
    cases hd with
    | stmtsOne h => exact .inl ⟨_, rfl, _, rfl, h⟩
    | stmtsMore hss h => exact .inr ⟨_, _, _, _, rfl, rfl, by simp, hss, _, rfl, h⟩
  · rintro ks s st ⟨ks', rfl, hs⟩ -
    exact accepts_closedStmt hg hexpr hs
  · rintro ss ks s st ⟨ks', rfl, hs⟩ -
    obtain ⟨k, ks₀, hks, hk⟩ := hs.first id
    refine within_peek_bind (.inl (by rw [hks]; rfl)) fun t => ?_
    rw [if_neg (fun hends : endsStmts k => ?_)]
    · exact (accepts_closedStmt hg hexpr hs).last fun s' hs' => within_pure ⟨s', rfl, hs'⟩
    · unfold endsStmts at hends
      split at hends
      · cases hk
      · cases hk
      · cases hk
      · cases hends
  · intro ss
    refine within_peek_bind (.inr ⟨rfl, hk⟩) fun t => ?_
    rw [if_pos hends]
    exact within_pure rfl

end

theorem accepts_paramsRule (hd : Derives (.params ds) ks)
    (hrest : rest.head.Shows (.punct ')')) : Within n (paramsRule g) ks rest (·.map Decl.bare = ds) := by
  cases hd with
  | paramsNone => exact within_sees_true (.inr ⟨rfl, hrest⟩) (within_pure rfl)
  | paramsSome hd =>
    obtain ⟨k, ks', rfl, name, rfl⟩ := hd.first id
    exact within_sees_false (.inl rfl) (by simp) (accepts_typedNames hg.type hd hrest (by simp))

theorem accepts_functionHead {name : String} {t : TypeExpr} {ks' tail : List Token.Kind}
    {f : String → List Decl → TypeExpr → Parse Decl} {post : Decl → Prop}
    (hds : Derives (.params ds) ks) (ht : Derives (.type t) ks')
    (hf : ∀ params result, params.map Decl.bare = ds → result.bare = t →
      Within n (f name params result) tail rest post) :
    Within n (do
      let name ← identifier
      symbol '('
      let params ← paramsRule g
      symbol ')'
      symbol ':'
      let result ← g.type
      f name params result)
      (.ident name :: .punct '(' :: (ks ++ .punct ')' :: .punct ':' :: (ks' ++ tail))) rest post := by
  refine within_identifier_bind (within_symbol_bind (.bind (fun st hst =>
    accepts_paramsRule hg hds hst.shows) fun params hparams => within_symbol_bind (within_symbol_bind ?_)))
  exact .bind (fun st _ => hg.type ht) fun result hresult => hf params result hparams hresult

theorem accepts_declRule {d : Decl} (hd : Derives (.decl d) ks) : Within (n + 1) (declRule g) ks rest (·.bare = d) := by
  refine within_enter_bind ?_
  cases hd with
  | typ h | var h =>
    refine within_next_nested fun t => .bind (fun st _ => accepts_typedName (hg.type h)) fun d hd => ?_
    exact within_symbol_bind (within_pure hd)
  | @proto name ds t ks ks' hds h =>
    refine within_next_nested fun tok => .bind (Q := (·.bare = .proto .blank name ds t)) (fun st hst => ?_) fun d hd =>
      within_symbol_bind (within_pure hd)
    rw [← List.append_nil ks']
    refine accepts_functionHead hg hds h fun params result hparams hresult => ?_
    refine within_sees_false (.inr ⟨rfl, hst.shows⟩) (by simp) ?_
    exact within_mark fun m => by simp [hparams, hresult]
  | @function name ds t e ks ks' ks'' hds h he =>
    refine within_next_nested fun tok => .bind (Q := (·.bare = .function .blank name ds t e)) (fun st hst => ?_)
      fun d hd => within_symbol_bind (within_pure hd)
    change Within _ _ (.ident name :: .punct '(' :: ks ++ .punct ')' :: .punct ':' :: ks' ++ .punct '=' :: ks'') _ _
    rw [List.append_assoc]
    refine accepts_functionHead hg hds h fun params result hparams hresult => ?_
    refine within_sees_true (.inl rfl) (within_next_bind fun _ => (hg.expr he (hst.ends rfl)).last fun body hbody => ?_)
    exact within_mark fun m => by simp [hparams, hresult, hbody]

theorem accepts_declsRule (hd : Derives (.decls ds) ks) (hk : rest.head.Shows k) (hbegins : ¬beginsDecl k) :
    Within (n + 1) (declsRule g) ks rest (·.map Decl.bare = ds) := by
  refine within_list (L := fun ks ds => Derives (.decls ds) ks) (p := [])
    (O := fun ks d => Derives (.decl d) ks) (R := fun _ => True) ?_ (fun _ _ _ hd _ => accepts_declRule hg hd)
    (fun _ _ _ _ _ _ => trivial) ?_ trivial ?_ hd
  · intro ks ds hd
    cases hd with
    | declsOne h => exact .inl ⟨_, rfl, h⟩
    | declsMore hds h =>
      obtain ⟨k, ks', rfl, -⟩ := h.first id
      exact .inr ⟨_, _, _, _, rfl, rfl, by simp, hds, h⟩
  · intro ds ks d st hd _
    obtain ⟨k, ks', rfl, hk⟩ := hd.first id
    refine within_peek_bind (.inl rfl) fun t => ?_
    rw [if_pos (show beginsDecl k from hk)]
    exact (accepts_declRule hg hd).last fun d' hd' => within_pure ⟨d', rfl, hd'⟩
  · intro ds
    refine within_peek_bind (.inr ⟨rfl, hk⟩) fun t => ?_
    rw [if_neg hbegins]
    exact within_pure rfl

end
end

/-- As many levels as tokens suffice. -/
theorem complete_ofDepth (n : Nat) : (ofDepth n).Complete n := by
  induction n with
  | zero =>
    have hnone : ∀ {p : Phrase} {ks : List Token.Kind}, Derives p ks → ¬p.Optional → ¬ks.length ≤ 0 := by
      intro p ks h hp hks
      obtain ⟨k, ks', rfl, -⟩ := h.first hp
      cases hks
    exact ⟨fun h _ hn => absurd hn (hnone h id), fun h _ hn => absurd hn (hnone h id),
      fun h hn => absurd hn (hnone h id), fun h _ _ hn => absurd hn (hnone h id),
      fun h _ _ hn => absurd hn (hnone h id)⟩
  | succ n ih =>
    have hfactor : AcceptsExpr (n + 1) .factor (factorRule (ofDepth n)) := accepts_factorRule ih
    have hexpr : AcceptsExpr (n + 1) .disjunction (exprRule (factorRule (ofDepth n))) := accepts_exprRule hfactor
    exact ⟨hfactor, hexpr, accepts_typeRule ih, accepts_stmtsRule ih hexpr, accepts_declsRule ih⟩

end Grammar
end MmixCompiler
