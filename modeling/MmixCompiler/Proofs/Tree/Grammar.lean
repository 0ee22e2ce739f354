import MmixCompiler.Token.Basic
import MmixCompiler.Tree.Basic

/-! The grammar of programs, as a relation between phrases and the kinds of their tokens. Trees of
the grammar carry blank marks; `bare` blanks the marks of any tree. -/

namespace MmixCompiler

def Mark.blank : Mark := default

mutual

/-- The tree without numbers and places. -/
def Decl.bare : Decl → Decl
  | .typed _ role name type => .typed .blank role name type.bare
  | .proto _ name params result => .proto .blank name (Decl.bareAll params) result.bare
  | .function _ name params result body =>
    .function .blank name (Decl.bareAll params) result.bare body.bare

def Decl.bareAll : List Decl → List Decl
  | [] => []
  | d :: ds => d.bare :: Decl.bareAll ds

@[inherit_doc Decl.bare]
def TypeExpr.bare : TypeExpr → TypeExpr
  | .atom _ type => .atom .blank type
  | .named _ name => .named .blank name
  | .ptr _ target => .ptr .blank target.bare
  | .arr _ length element => .arr .blank length.bare element.bare
  | .record _ components => .record .blank (Decl.bareAll components)

@[inherit_doc Decl.bare]
def Stmt.bare : Stmt → Stmt
  | .expr _ value => .expr .blank value.bare
  | .assign _ dst src => .assign .blank dst.bare src.bare
  | .cond _ test yes no => .cond .blank test.bare (Stmt.bareAll yes) (Stmt.bareAll no)
  | .loop _ test body => .loop .blank test.bare (Stmt.bareAll body)

def Stmt.bareAll : List Stmt → List Stmt
  | [] => []
  | s :: ss => s.bare :: Stmt.bareAll ss

@[inherit_doc Decl.bare]
def Expr.bare : Expr → Expr
  | .lit _ value => .lit .blank value
  | .name _ name => .name .blank name
  | .call _ name args => .call .blank name (Expr.bareAll args)
  | .binary _ op lhs rhs => .binary .blank op lhs.bare rhs.bare
  | .unary _ op operand => .unary .blank op operand.bare
  | .cast _ value type => .cast .blank value.bare type.bare
  | .new _ type => .new .blank type.bare
  | .del _ value => .del .blank value.bare
  | .index _ array index => .index .blank array.bare index.bare
  | .field _ record name => .field .blank record.bare name
  | .block _ stmts value decls =>
    .block .blank (Stmt.bareAll stmts) value.bare (Decl.bareAll decls)

def Expr.bareAll : List Expr → List Expr
  | [] => []
  | e :: es => e.bare :: Expr.bareAll es

end

attribute [simp] Decl.bare TypeExpr.bare Stmt.bare Expr.bare

@[inherit_doc Decl.bare]
def Program.bare (p : Program) : Program := ⟨Decl.bareAll p.decls⟩

@[simp] theorem Decl.bareAll_eq (ds : List Decl) : Decl.bareAll ds = ds.map Decl.bare := by
  induction ds with
  | nil => rfl
  | cons d ds ih => simp [Decl.bareAll, ih]

@[simp] theorem Stmt.bareAll_eq (ss : List Stmt) : Stmt.bareAll ss = ss.map Stmt.bare := by
  induction ss with
  | nil => rfl
  | cons s ss ih => simp [Stmt.bareAll, ih]

@[simp] theorem Expr.bareAll_eq (es : List Expr) : Expr.bareAll es = es.map Expr.bare := by
  induction es with
  | nil => rfl
  | cons e es ih => simp [Expr.bareAll, ih]

/-- The strengths of expressions, from the loosest. -/
inductive Precedence where
  | disjunction | conjunction | comparison | sum | product
  /-- What signs and the like stand before. -/
  | factor
  /-- What selectors stand behind. -/
  | selection
  | atom
deriving DecidableEq

def Precedence.tighter : Precedence → Option Precedence
  | .disjunction => some .conjunction
  | .conjunction => some .comparison
  | .comparison => some .sum
  | .sum => some .product
  | .product => some .factor
  | .factor => some .selection
  | .selection => some .atom
  | .atom => none

namespace BinaryOp

def precedence : BinaryOp → Precedence
  | .or | .xor => .disjunction
  | .and => .conjunction
  | .eq | .ne | .lt | .gt | .le | .ge => .comparison
  | .add | .sub => .sum
  | .mul | .div | .mod => .product

def token : BinaryOp → Token.Kind
  | .or => .punct '|'
  | .xor => .punct '^'
  | .and => .punct '&'
  | .eq => .eq
  | .ne => .ne
  | .lt => .punct '<'
  | .gt => .punct '>'
  | .le => .le
  | .ge => .ge
  | .add => .punct '+'
  | .sub => .punct '-'
  | .mul => .punct '*'
  | .div => .punct '/'
  | .mod => .punct '%'

end BinaryOp

def UnaryOp.token : UnaryOp → Token.Kind
  | .plus => .punct '+'
  | .minus => .punct '-'
  | .not => .punct '!'
  | .addr => .punct '$'
  | .deref => .punct '@'

def Literal.token : Literal → Token.Kind
  | .int value => .int value
  | .char value => .char value
  | .bool true => .keyword .true
  | .bool false => .keyword .false
  | .none => .keyword .none
  | .null => .keyword .null
  | .str value => .str value

def AtomType.token : AtomType → Token.Kind
  | .int => .keyword .int
  | .char => .keyword .char
  | .bool => .keyword .bool
  | .void => .keyword .void

/-- What the rules of the grammar are about. -/
inductive Phrase where
  | expr (strength : Precedence) (e : Expr)
  /-- Expressions with commas between them, at least one. -/
  | exprs (es : List Expr)
  | args (es : List Expr)
  | type (t : TypeExpr)
  /-- Names with their types and commas between them, at least one. -/
  | names (role : Role) (ds : List Decl)
  | params (ds : List Decl)
  | stmt (s : Stmt)
  /-- Statements, each with a semicolon, at least one. -/
  | stmts (ss : List Stmt)
  | otherwise (ss : List Stmt)
  | decl (d : Decl)
  /-- Declarations, at least one. -/
  | decls (ds : List Decl)
  | scope (ds : List Decl)

/-- The tokens spell the phrase. -/
inductive Derives : Phrase → List Token.Kind → Prop where
  -- expressions, level by level
  | tighter {ℓ ℓ' e ks} (hℓ : ℓ.tighter = some ℓ') (h : Derives (.expr ℓ' e) ks) :
    Derives (.expr ℓ e) ks
  /-- Operators group from the left: only the left operand may be of the operator's own level. -/
  | binary {op ℓ ℓ' lhs rhs ks ks'} (hop : op.precedence = ℓ) (hassoc : ℓ ≠ .comparison)
    (hℓ : ℓ.tighter = some ℓ') (hlhs : Derives (.expr ℓ lhs) ks) (hrhs : Derives (.expr ℓ' rhs) ks') :
    Derives (.expr ℓ (.binary .blank op lhs rhs)) (ks ++ op.token :: ks')
  /-- Comparisons do not associate. -/
  | comparison {op lhs rhs ks ks'} (hop : op.precedence = .comparison) (hlhs : Derives (.expr .sum lhs) ks)
    (hrhs : Derives (.expr .sum rhs) ks') :
    Derives (.expr .comparison (.binary .blank op lhs rhs)) (ks ++ op.token :: ks')
  | unary {op e ks} (h : Derives (.expr .factor e) ks) :
    Derives (.expr .factor (.unary .blank op e)) (op.token :: ks)
  | new {t ks} (h : Derives (.type t) ks) :
    Derives (.expr .factor (.new .blank t)) (.keyword .new :: .punct '(' :: ks ++ [.punct ')'])
  | del {e ks} (h : Derives (.expr .disjunction e) ks) :
    Derives (.expr .factor (.del .blank e)) (.keyword .del :: .punct '(' :: ks ++ [.punct ')'])
  | index {e i ks ks'} (h : Derives (.expr .selection e) ks)
    (hi : Derives (.expr .disjunction i) ks') :
    Derives (.expr .selection (.index .blank e i)) (ks ++ .punct '[' :: ks' ++ [.punct ']'])
  | field {e name ks} (h : Derives (.expr .selection e) ks) :
    Derives (.expr .selection (.field .blank e name)) (ks ++ [.punct '.', .ident name])
  | lit {value} : Derives (.expr .atom (.lit .blank value)) [value.token]
  | name {name} : Derives (.expr .atom (.name .blank name)) [.ident name]
  | call {name es ks} (h : Derives (.args es) ks) :
    Derives (.expr .atom (.call .blank name es)) (.ident name :: .punct '(' :: ks ++ [.punct ')'])
  | parens {e ks} (h : Derives (.expr .disjunction e) ks) :
    Derives (.expr .atom e) (.punct '(' :: ks ++ [.punct ')'])
  | cast {e t ks ks'} (h : Derives (.expr .disjunction e) ks) (ht : Derives (.type t) ks') :
    Derives (.expr .atom (.cast .blank e t)) (.punct '(' :: ks ++ .punct ':' :: ks' ++ [.punct ')'])
  | block {ss e ds ks ks' ks''} (hss : Derives (.stmts ss) ks) (h : Derives (.expr .disjunction e) ks')
    (hds : Derives (.scope ds) ks'') :
    Derives (.expr .atom (.block .blank ss e ds))
      (.punct '\x7b' :: ks ++ .punct ':' :: ks' ++ ks'' ++ [.punct '\x7d'])
  -- arguments
  | exprsOne {e ks} (h : Derives (.expr .disjunction e) ks) : Derives (.exprs [e]) ks
  | exprsMore {es e ks ks'} (hes : Derives (.exprs es) ks) (h : Derives (.expr .disjunction e) ks') :
    Derives (.exprs (es ++ [e])) (ks ++ .punct ',' :: ks')
  | argsNone : Derives (.args []) []
  | argsSome {es ks} (h : Derives (.exprs es) ks) : Derives (.args es) ks
  -- types
  | atomType {a} : Derives (.type (.atom .blank a)) [AtomType.token a]
  | named {name} : Derives (.type (.named .blank name)) [.ident name]
  | typeParens {t ks} (h : Derives (.type t) ks) :
    Derives (.type t) (.punct '(' :: ks ++ [.punct ')'])
  | arr {e t ks ks'} (h : Derives (.expr .disjunction e) ks) (ht : Derives (.type t) ks') :
    Derives (.type (.arr .blank e t)) (.keyword .arr :: .punct '[' :: ks ++ .punct ']' :: ks')
  | ptr {t ks} (h : Derives (.type t) ks) : Derives (.type (.ptr .blank t)) (.keyword .ptr :: ks)
  | record {ds ks} (h : Derives (.names .component ds) ks) :
    Derives (.type (.record .blank ds)) (.keyword .record :: .punct '(' :: ks ++ [.punct ')'])
  | namesOne {role name t ks} (h : Derives (.type t) ks) :
    Derives (.names role [.typed .blank role name t]) (.ident name :: .punct ':' :: ks)
  | namesMore {role ds name t ks ks'} (hds : Derives (.names role ds) ks) (h : Derives (.type t) ks') :
    Derives (.names role (ds ++ [.typed .blank role name t]))
      (ks ++ .punct ',' :: .ident name :: .punct ':' :: ks')
  -- statements
  | expr {e ks} (h : Derives (.expr .disjunction e) ks) : Derives (.stmt (.expr .blank e)) ks
  | assign {dst src ks ks'} (hdst : Derives (.expr .disjunction dst) ks)
    (hsrc : Derives (.expr .disjunction src) ks') :
    Derives (.stmt (.assign .blank dst src)) (ks ++ .punct '=' :: ks')
  | cond {e yes no ks ks' ks''} (h : Derives (.expr .disjunction e) ks) (hyes : Derives (.stmts yes) ks')
    (hno : Derives (.otherwise no) ks'') :
    Derives (.stmt (.cond .blank e yes no))
      (.keyword .if :: ks ++ .keyword .then :: ks' ++ ks'' ++ [.keyword .end])
  | loop {e ss ks ks'} (h : Derives (.expr .disjunction e) ks) (hss : Derives (.stmts ss) ks') :
    Derives (.stmt (.loop .blank e ss)) (.keyword .while :: ks ++ .keyword .do :: ks' ++ [.keyword .end])
  | stmtsOne {s ks} (h : Derives (.stmt s) ks) : Derives (.stmts [s]) (ks ++ [.punct ';'])
  | stmtsMore {ss s ks ks'} (hss : Derives (.stmts ss) ks) (h : Derives (.stmt s) ks') :
    Derives (.stmts (ss ++ [s])) (ks ++ (ks' ++ [.punct ';']))
  | otherwiseNone : Derives (.otherwise []) []
  | otherwiseSome {ss ks} (h : Derives (.stmts ss) ks) : Derives (.otherwise ss) (.keyword .else :: ks)
  -- declarations
  | typ {name t ks} (h : Derives (.type t) ks) :
    Derives (.decl (.typed .blank .type name t))
      (.keyword .typ :: .ident name :: .punct ':' :: ks ++ [.punct ';'])
  | var {name t ks} (h : Derives (.type t) ks) :
    Derives (.decl (.typed .blank .variable name t))
      (.keyword .var :: .ident name :: .punct ':' :: ks ++ [.punct ';'])
  | proto {name ds t ks ks'} (hds : Derives (.params ds) ks) (h : Derives (.type t) ks') :
    Derives (.decl (.proto .blank name ds t))
      (.keyword .fun :: .ident name :: .punct '(' :: ks ++ .punct ')' :: .punct ':' :: ks' ++ [.punct ';'])
  | function {name ds t e ks ks' ks''} (hds : Derives (.params ds) ks) (h : Derives (.type t) ks')
    (he : Derives (.expr .disjunction e) ks'') :
    Derives (.decl (.function .blank name ds t e))
      (.keyword .fun :: .ident name :: .punct '(' :: ks ++ .punct ')' :: .punct ':' :: ks' ++
        .punct '=' :: ks'' ++ [.punct ';'])
  | paramsNone : Derives (.params []) []
  | paramsSome {ds ks} (h : Derives (.names .parameter ds) ks) : Derives (.params ds) ks
  | declsOne {d ks} (h : Derives (.decl d) ks) : Derives (.decls [d]) ks
  | declsMore {ds d ks ks'} (hds : Derives (.decls ds) ks) (h : Derives (.decl d) ks') :
    Derives (.decls (ds ++ [d])) (ks ++ ks')
  | scopeNone : Derives (.scope []) []
  | scopeSome {ds ks} (h : Derives (.decls ds) ks) : Derives (.scope ds) (.keyword .where :: ks)

end MmixCompiler
