import MmixCompiler.Proofs.Tree.Code
import MmixCompiler.Proofs.Types.Shape
import MmixCompiler.Types.Checking

/-! The typing rules. Types are those that a program writes down, and what the rules build of them; they are
the same if their unfoldings are, whatever names they go by. A judgement holds if it follows from the rules. -/

namespace MmixCompiler

open List

/-- A type as the rules know it. -/
inductive SourceType where
  | atom (type : AtomType)
  | ptr (target : SourceType)
  /-- What a type expression of the program says. -/
  | written (type : TypeExpr)

namespace SourceType

/-- The shape of a type, where a name is what the declaration it is bound to says. -/
inductive Unfolds (b : Bindings) : SourceType → TypeShape SourceType → Prop where
  | atom (type : AtomType) : Unfolds b (.atom type) (.atom type)
  | ptr (target : SourceType) : Unfolds b (.ptr target) (.ptr target)
  | writtenAtom (mark : Mark) (type : AtomType) : Unfolds b (.written (.atom mark type)) (.atom type)
  | writtenPtr (mark : Mark) (target : TypeExpr) : Unfolds b (.written (.ptr mark target)) (.ptr (.written target))
  | writtenArr (mark : Mark) {length : Expr} (element : TypeExpr) {n : Int} (hlength : length.constant = .ok n) :
      Unfolds b (.written (.arr mark length element)) (.arr n (.written element))
  | writtenRecord (mark : Mark) (components : List Decl) :
      Unfolds b (.written (.record mark components)) (.record (components.map fun d => (d.name, .written d.type)))
  | writtenName {mark : Mark} {name : String} {d : Decl} {x : TypeShape SourceType} (hbound : b[mark.id]? = some d)
      (h : Unfolds b (.written d.type) x) : Unfolds b (.written (.named mark name)) x

/-- Two types have the same unfolding: some relation between them holds of their parts again. -/
def Matches (b : Bindings) (t u : SourceType) : Prop :=
  ∃ R : SourceType → SourceType → Prop, R t u ∧ ∀ t u, R t u →
    ∃ x y, t.Unfolds b x ∧ u.Unfolds b y ∧ x.Agrees TypeShape.anyNames R y

variable {b : Bindings} {t : SourceType} {x y : TypeShape SourceType}

theorem Unfolds.unique (h : t.Unfolds b x) (h' : t.Unfolds b y) : x = y := by
  induction h with
  | atom | ptr | writtenAtom | writtenPtr | writtenRecord =>
    cases h'
    rfl
  | writtenArr mark element hlength =>
    cases h' with
    | writtenArr _ _ hlength' =>
      cases hlength.symm.trans hlength'
      rfl
  | writtenName hbound _ ih =>
    cases h' with
    | writtenName hbound' h' =>
      cases hbound.symm.trans hbound'
      exact ih h'

end SourceType

/-- The shapes of values that fill one word. -/
def TypeShape.isWord {α : Type} : TypeShape α → Bool
  | .atom .int | .atom .char | .atom .bool | .ptr _ => true
  | _ => false

/-- The shapes of values that casts connect and that have an order. -/
def TypeShape.isCastable {α : Type} : TypeShape α → Bool
  | .atom .int | .atom .char | .ptr _ => true
  | _ => false

def BinaryOp.isRelational : BinaryOp → Bool
  | .lt | .gt | .le | .ge => true
  | _ => false

theorem BinaryOp.isArithmetic_eq_false {op : BinaryOp} (h : op.isLogical ∨ op.isEquality ∨ op.isRelational) :
    op.isArithmetic = false := by
  revert h
  cases op <;> decide

def Literal.type : Literal → SourceType
  | .int _ => .atom .int
  | .char _ => .atom .char
  | .bool _ => .atom .bool
  | .none => .atom .void
  | .null => .ptr (.atom .void)
  | .str _ => .ptr (.atom .char)

/-- What the rules speak of. -/
inductive Judgement where
  /-- An expression has a type. -/
  | value (e : Expr) (t : SourceType)
  /-- Arguments suit parameters. -/
  | arguments (params : List Decl) (args : List Expr)
  | statement (s : Stmt)
  | declaration (d : Decl)

open SourceType in
/-- The typing rules. -/
inductive Judgement.Holds (b : Bindings) : Judgement → Prop where
  | literal (mark : Mark) (value : Literal) : Holds b (.value (.lit mark value) value.type)
  | name {mark : Mark} (name : String) {d : Decl} (hbound : b[mark.id]? = some d) :
      Holds b (.value (.name mark name) (.written d.type))
  | call {mark : Mark} (name : String) {args : List Expr} {d : Decl} {params : List Decl} {result : TypeExpr}
      (hbound : b[mark.id]? = some d) (hsignature : d.signature? = some (params, result))
      (hargs : Holds b (.arguments params args)) : Holds b (.value (.call mark name args) (.written result))
  | noArguments : Holds b (.arguments [] [])
  | argument {param : Decl} {params : List Decl} {arg : Expr} {args : List Expr} {t : SourceType}
      {x : TypeShape SourceType} (harg : Holds b (.value arg t)) (hmatch : Matches b (.written param.type) t)
      (hparam : (SourceType.written param.type).Unfolds b x) (hword : x.isWord)
      (hargs : Holds b (.arguments params args)) : Holds b (.arguments (param :: params) (arg :: args))
  | logical (mark : Mark) {op : BinaryOp} {lhs rhs : Expr} {t u : SourceType} (hop : op.isLogical)
      (hlhs : Holds b (.value lhs t)) (hrhs : Holds b (.value rhs u)) (ht : t.Unfolds b (.atom .bool))
      (hu : u.Unfolds b (.atom .bool)) : Holds b (.value (.binary mark op lhs rhs) (.atom .bool))
  | arithmetic (mark : Mark) {op : BinaryOp} {lhs rhs : Expr} {t u : SourceType} (hop : op.isArithmetic)
      (hlhs : Holds b (.value lhs t)) (hrhs : Holds b (.value rhs u)) (hmatch : Matches b t u)
      (ht : t.Unfolds b (.atom .int) ∨ t.Unfolds b (.atom .char)) :
      Holds b (.value (.binary mark op lhs rhs) (.atom .int))
  | equality (mark : Mark) {op : BinaryOp} {lhs rhs : Expr} {t u : SourceType} {x : TypeShape SourceType}
      (hop : op.isEquality) (hlhs : Holds b (.value lhs t)) (hrhs : Holds b (.value rhs u))
      (hmatch : Matches b t u) (ht : t.Unfolds b x) (hword : x.isWord) :
      Holds b (.value (.binary mark op lhs rhs) (.atom .bool))
  | relational (mark : Mark) {op : BinaryOp} {lhs rhs : Expr} {t u : SourceType} {x : TypeShape SourceType}
      (hop : op.isRelational) (hlhs : Holds b (.value lhs t)) (hrhs : Holds b (.value rhs u))
      (hmatch : Matches b t u) (ht : t.Unfolds b x) (hordered : x.isCastable) :
      Holds b (.value (.binary mark op lhs rhs) (.atom .bool))
  | sign (mark : Mark) {op : UnaryOp} {operand : Expr} {t : SourceType} (hop : op = .plus ∨ op = .minus)
      (hoperand : Holds b (.value operand t)) (ht : t.Unfolds b (.atom .int)) :
      Holds b (.value (.unary mark op operand) (.atom .int))
  | negation (mark : Mark) {operand : Expr} {t : SourceType} (hoperand : Holds b (.value operand t))
      (ht : t.Unfolds b (.atom .bool)) : Holds b (.value (.unary mark .not operand) (.atom .bool))
  | address (mark : Mark) {operand : Expr} {t : SourceType} (hoperand : Holds b (.value operand t))
      (ht : ¬ t.Unfolds b (.atom .void)) : Holds b (.value (.unary mark .addr operand) (.ptr t))
  | dereference (mark : Mark) {operand : Expr} {t target : SourceType} (hoperand : Holds b (.value operand t))
      (ht : t.Unfolds b (.ptr target)) (htarget : ¬ target.Unfolds b (.atom .void)) :
      Holds b (.value (.unary mark .deref operand) target)
  | cast (mark : Mark) {value : Expr} {type : TypeExpr} {t : SourceType} {x y : TypeShape SourceType}
      (hvalue : Holds b (.value value t)) (ht : t.Unfolds b x) (hx : x.isCastable)
      (htype : (SourceType.written type).Unfolds b y) (hy : y.isCastable) :
      Holds b (.value (.cast mark value type) (.written type))
  | new (mark : Mark) {type : TypeExpr} (htype : ¬ (SourceType.written type).Unfolds b (.atom .void)) :
      Holds b (.value (.new mark type) (.ptr (.written type)))
  | del (mark : Mark) {value : Expr} {t target : SourceType} (hvalue : Holds b (.value value t))
      (ht : t.Unfolds b (.ptr target)) (htarget : ¬ target.Unfolds b (.atom .void)) :
      Holds b (.value (.del mark value) (.atom .void))
  | index (mark : Mark) {array index : Expr} {t u element : SourceType} {n : Int}
      (harray : Holds b (.value array t)) (hindex : Holds b (.value index u)) (ht : t.Unfolds b (.arr n element))
      (hu : u.Unfolds b (.atom .int)) : Holds b (.value (.index mark array index) element)
  | field (mark : Mark) {record : Expr} {name : String} {t component : SourceType}
      {fields : List (String × SourceType)} (hrecord : Holds b (.value record t))
      (ht : t.Unfolds b (.record fields)) (hfield : fields.lookup name = some component) :
      Holds b (.value (.field mark record name) component)
  | block (mark : Mark) {stmts : List Stmt} {value : Expr} {decls : List Decl} {t : SourceType}
      (hdecls : ∀ d ∈ decls, Holds b (.declaration d)) (hstmts : ∀ s ∈ stmts, Holds b (.statement s))
      (hvalue : Holds b (.value value t)) : Holds b (.value (.block mark stmts value decls) t)
  | expression (mark : Mark) {value : Expr} {t : SourceType} (hvalue : Holds b (.value value t)) :
      Holds b (.statement (.expr mark value))
  | assign (mark : Mark) {dst src : Expr} {t u : SourceType} {x : TypeShape SourceType} (hdst : Holds b (.value dst t))
      (hsrc : Holds b (.value src u)) (hmatch : Matches b t u) (ht : t.Unfolds b x) (hword : x.isWord) :
      Holds b (.statement (.assign mark dst src))
  | cond (mark : Mark) {test : Expr} {yes no : List Stmt} {t : SourceType} (htest : Holds b (.value test t))
      (ht : t.Unfolds b (.atom .bool)) (hyes : ∀ s ∈ yes, Holds b (.statement s))
      (hno : ∀ s ∈ no, Holds b (.statement s)) : Holds b (.statement (.cond mark test yes no))
  | loop (mark : Mark) {test : Expr} {body : List Stmt} {t : SourceType} (htest : Holds b (.value test t))
      (ht : t.Unfolds b (.atom .bool)) (hbody : ∀ s ∈ body, Holds b (.statement s)) :
      Holds b (.statement (.loop mark test body))
  | typed (mark : Mark) (role : Role) (name : String) (type : TypeExpr) :
      Holds b (.declaration (.typed mark role name type))
  | proto (mark : Mark) (name : String) (params : List Decl) (result : TypeExpr) :
      Holds b (.declaration (.proto mark name params result))
  | function (mark : Mark) (name : String) (params : List Decl) {result : TypeExpr} {body : Expr} {t : SourceType}
      (hbody : Holds b (.value body t)) (hmatch : Matches b (.written result) t) :
      Holds b (.declaration (.function mark name params result body))

namespace Judgement

/-- What a judgement says of the type of an expression is said by no other type. -/
def Settled (b : Bindings) : Judgement → Prop
  | .value e t => ∀ u, Holds b (.value e u) → t = u
  | _ => True

theorem Holds.settled {b : Bindings} {j : Judgement} (h : j.Holds b) : j.Settled b := by
  induction h with
  | noArguments | argument | expression | assign | cond | loop | typed | proto | function => trivial
  | literal | new | cast | del =>
    intro u hu
    cases hu
    rfl
  | name name hbound =>
    intro u hu
    cases hu with
    | name _ hbound' =>
      cases hbound.symm.trans hbound'
      rfl
  | call name hbound hsignature =>
    intro u hu
    cases hu with
    | call _ hbound' hsignature' =>
      cases hbound.symm.trans hbound'
      cases hsignature.symm.trans hsignature'
      rfl
  | arithmetic mark hop =>
    intro u hu
    cases hu with
    | arithmetic => rfl
    | logical _ hop' => simp [BinaryOp.isArithmetic_eq_false (.inl hop')] at hop
    | equality _ hop' => simp [BinaryOp.isArithmetic_eq_false (.inr (.inl hop'))] at hop
    | relational _ hop' => simp [BinaryOp.isArithmetic_eq_false (.inr (.inr hop'))] at hop
  | logical mark hop =>
    intro u hu
    cases hu with
    | arithmetic _ hop' => simp [BinaryOp.isArithmetic_eq_false (.inl hop)] at hop'
    | _ => rfl
  | equality mark hop =>
    intro u hu
    cases hu with
    | arithmetic _ hop' => simp [BinaryOp.isArithmetic_eq_false (.inr (.inl hop))] at hop'
    | _ => rfl
  | relational mark hop =>
    intro u hu
    cases hu with
    | arithmetic _ hop' => simp [BinaryOp.isArithmetic_eq_false (.inr (.inr hop))] at hop'
    | _ => rfl
  | sign mark hop =>
    intro u hu
    rcases hop with rfl | rfl
    all_goals
      cases hu
      rfl
  | negation =>
    intro u hu
    cases hu with
    | sign _ hop => simp at hop
    | negation => rfl
  | address mark hoperand ht ih =>
    intro u hu
    cases hu with
    | sign _ hop => simp at hop
    | address _ hoperand' => rw [ih _ hoperand']
  | dereference mark hoperand ht htarget ih =>
    intro u hu
    cases hu with
    | sign _ hop => simp at hop
    | dereference _ hoperand' ht' =>
      cases ih _ hoperand'
      cases ht.unique ht'
      rfl
  | index mark harray hindex ht hu iha =>
    intro u hu
    cases hu with
    | index _ harray' _ ht' =>
      cases iha _ harray'
      cases ht.unique ht'
      rfl
  | field mark hrecord ht hfield ih =>
    intro u hu
    cases hu with
    | field _ hrecord' ht' hfield' =>
      cases ih _ hrecord'
      cases ht.unique ht'
      exact Option.some.inj (hfield.symm.trans hfield')
  | block mark hdecls hstmts hvalue _ _ ih =>
    intro u hu
    cases hu with
    | block _ _ _ hvalue' => exact ih _ hvalue'

theorem Holds.unique {b : Bindings} {e : Expr} {t u : SourceType} (h : Holds b (.value e t))
    (h' : Holds b (.value e u)) : t = u := h.settled u h'

theorem Holds.exists_argument {b : Bindings} {params : List Decl} {args : List Expr}
    (h : Holds b (.arguments params args)) : ∀ e ∈ args, ∃ t, Holds b (.value e t) := by
  induction args generalizing params with
  | nil => simp
  | cons e args ih =>
    cases h with
    | argument harg _ _ _ hargs => exact forall_mem_cons.mpr ⟨⟨_, harg⟩, ih hargs⟩

theorem Holds.length_eq {b : Bindings} {params : List Decl} {args : List Expr}
    (h : Holds b (.arguments params args)) : params.length = args.length := by
  induction args generalizing params with
  | nil =>
    cases h
    rfl
  | cons e args ih =>
    cases h with
    | argument _ _ _ _ hargs => simp [ih hargs]

end Judgement

def Node.Derivable (b : Bindings) : Node → Prop
  | .expr e => ∃ u, Judgement.Holds b (.value e u)
  | .stmt s => Judgement.Holds b (.statement s)
  | .decl d => Judgement.Holds b (.declaration d)
  | .type _ => True

section
variable {b : Bindings} {k : Nat}

theorem Stmt.derivable_parts {s : Stmt} (h : (Node.stmt s).Derivable b) :
    ∀ q ∈ (Node.stmt s).parts true k, q.2.Derivable b := by
  cases h with
  | expression _ hvalue => exact forall_mem_singleton.mpr ⟨_, hvalue⟩
  | assign _ hdst hsrc => exact forall_mem_cons.mpr ⟨⟨_, hdst⟩, forall_mem_singleton.mpr ⟨_, hsrc⟩⟩
  | cond _ htest _ hyes hno =>
    exact forall_mem_cons.mpr ⟨⟨_, htest⟩, forall_mem_append.mpr
      ⟨forall_mem_map.mpr hyes, forall_mem_map.mpr hno⟩⟩
  | loop _ htest _ hbody => exact forall_mem_cons.mpr ⟨⟨_, htest⟩, forall_mem_map.mpr hbody⟩

theorem Expr.derivable_parts {e : Expr} (h : (Node.expr e).Derivable b) :
    ∀ q ∈ (Node.expr e).parts true k, q.2.Derivable b := by
  obtain ⟨u, hu⟩ := h
  cases hu with
  | literal | name => exact forall_mem_nil _
  | call _ _ _ hargs => exact forall_mem_map.mpr hargs.exists_argument
  | logical _ _ hlhs hrhs | arithmetic _ _ hlhs hrhs | equality _ _ hlhs hrhs | relational _ _ hlhs hrhs
  | index _ hlhs hrhs => exact forall_mem_cons.mpr ⟨⟨_, hlhs⟩, forall_mem_singleton.mpr ⟨_, hrhs⟩⟩
  | sign _ _ hpart | negation _ hpart | address _ hpart | dereference _ hpart | del _ hpart | field _ hpart =>
    exact forall_mem_singleton.mpr ⟨_, hpart⟩
  | cast _ hvalue => exact forall_mem_cons.mpr ⟨⟨_, hvalue⟩, forall_mem_singleton.mpr trivial⟩
  | new => exact forall_mem_singleton.mpr trivial
  | block _ hdecls hstmts hvalue =>
    refine forall_mem_append.mpr ⟨forall_mem_map.mpr hdecls, ?_⟩
    exact forall_mem_append.mpr ⟨forall_mem_map.mpr hstmts, forall_mem_singleton.mpr ⟨_, hvalue⟩⟩

end

/-- The bodies of a program's functions, those of nested functions with them, follow from the rules; parameters
are words, and results are words or nothing. -/
structure Program.WellTyped (p : Program) (b : Bindings) : Prop where
  declarations : ∀ d ∈ p.decls, Judgement.Holds b (.declaration d)
  parameters : ∀ mark name type, p.Has (.decl (.typed mark .parameter name type)) →
    ∃ x, (SourceType.written type).Unfolds b x ∧ x.isWord
  results : ∀ d params result, p.Has (.decl d) → d.signature? = some (params, result) →
    ∃ x, (SourceType.written result).Unfolds b x ∧ (x.isWord ∨ x = .atom .void)

end MmixCompiler
