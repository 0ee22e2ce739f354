import MmixCompiler.Token.Stream
import MmixCompiler.Tree.Basic
import MmixCompiler.Tree.Error

/-! Reading trees from tokens by recursive descent. The rules of the grammar are parsers over a
record of parsers for nested phrases; `Grammar.ofDepth` ties the knot to a nesting depth. A nested
phrase begins after a token of the enclosing one, so as many levels as there are tokens suffice. -/

namespace MmixCompiler

/-- The rules whose use is reported. -/
inductive Rule where
  | decl | type | stmt | expr | unary | primary
deriving DecidableEq

def Rule.text : Rule → String
  | .decl => "parse_decl"
  | .type => "parse_type"
  | .stmt => "parse_stmt"
  | .expr => "parse_expr"
  | .unary => "parse_unary_op"
  | .primary => "parse_primary"

/-- The state of a parser. `seen` is the place behind the last lexeme looked at, `trail` the rules
used so far with that place, latest first. -/
structure Reader where
  stream : Stream
  seen : Position := {}
  nextId : NodeId := 0
  trail : List (Rule × Position) := []

def Reader.ofString (src : String) : Reader := { stream := .ofString src }

/-- A parser keeps its state when it fails. -/
abbrev Parse := ExceptT ParseError (StateM Reader)

namespace Parse

def ofLexeme (l : Lexeme) : Parse Token :=
  match l.outcome with
  | .ok t => pure t
  | .error e => throw ⟨e.position, .lexical e.fault⟩

def peek : Parse Token := do
  let s ← get
  set { s with seen := s.stream.head.stop }
  ofLexeme s.stream.head

def next : Parse Token := do
  let s ← get
  set { s with stream := s.stream.tail, seen := s.stream.head.stop }
  ofLexeme s.stream.head

def sees (kind : Token.Kind) : Parse Bool := do
  let t ← peek
  return t.kind = kind

def reject {α : Type} (t : Token) (expected : Expected) : Parse α :=
  throw ⟨t.start, .unexpected expected t.kind⟩

def expect (kind : Token.Kind) (expected : Expected) : Parse Unit := do
  let t ← next
  if t.kind = kind then pure () else reject t expected

def symbol (c : Char) : Parse Unit := expect (.punct c) (.symbol c)

def word (w : Keyword) : Parse Unit := expect (.keyword w) (.word w)

def identifier : Parse String := do
  let t ← next
  match t.kind with
  | .ident name => return name
  | _ => reject t .identifier

def enter (rule : Rule) : Parse Unit :=
  modify fun s => { s with trail := (rule, s.seen) :: s.trail }

def mark (position : Position) : Parse Mark := do
  let s ← get
  set { s with nextId := s.nextId + 1 }
  return ⟨s.nextId, position⟩

/-- Repeats a step until it gives nothing, at most `n` times. -/
def repeatUpTo {α : Type} (step : α → Parse (Option α)) : Nat → α → Parse α
  | 0, a => pure a
  | n + 1, a => do
    match ← step a with
    | none => pure a
    | some b => repeatUpTo step n b

/-- Repeats a step that takes a token until it gives nothing. -/
def iterate {α : Type} (step : α → Parse (Option α)) (a : α) : Parse α := do
  let s ← get
  repeatUpTo step (s.stream.length + 1) a

end Parse

open Parse

/-- Parsers for phrases nested in others. -/
structure Grammar where
  /-- An operand of multiplications: an atom with its signs and selectors. -/
  factor : Parse Expr
  expr : Parse Expr
  type : Parse TypeExpr
  /-- Statements, each with its semicolon. -/
  stmts : Parse (List Stmt)
  decls : Parse (List Decl)

namespace Grammar

/-- Operands joined by operators, grouped from the left. -/
def leftAssoc (operand : Parse Expr) (op : Token.Kind → Option BinaryOp) : Parse Expr := do
  let first ← operand
  iterate (fun lhs => do
    match op (← peek).kind with
    | none => return none
    | some op =>
      let at_ := (← next).start
      let rhs ← operand
      return some (.binary (← mark at_) op lhs rhs)) first

def multiplicative : Token.Kind → Option BinaryOp
  | .punct '*' => some .mul
  | .punct '/' => some .div
  | .punct '%' => some .mod
  | _ => none

def additive : Token.Kind → Option BinaryOp
  | .punct '+' => some .add
  | .punct '-' => some .sub
  | _ => none

def relational : Token.Kind → Option BinaryOp
  | .eq => some .eq
  | .ne => some .ne
  | .le => some .le
  | .ge => some .ge
  | .punct '<' => some .lt
  | .punct '>' => some .gt
  | _ => none

def conjunctive : Token.Kind → Option BinaryOp
  | .punct '&' => some .and
  | _ => none

def disjunctive : Token.Kind → Option BinaryOp
  | .punct '|' => some .or
  | .punct '^' => some .xor
  | _ => none

def signs : Token.Kind → Option UnaryOp
  | .punct '+' => some .plus
  | .punct '-' => some .minus
  | .punct '!' => some .not
  | .punct '$' => some .addr
  | .punct '@' => some .deref
  | _ => none

def sum (factor : Parse Expr) : Parse Expr := leftAssoc (leftAssoc factor multiplicative) additive

/-- At most one relational operator: comparisons do not associate. -/
def comparison (factor : Parse Expr) : Parse Expr := do
  let lhs ← sum factor
  match relational (← peek).kind with
  | none => return lhs
  | some op =>
    let at_ := (← next).start
    let rhs ← sum factor
    return .binary (← mark at_) op lhs rhs

def exprRule (factor : Parse Expr) : Parse Expr := do
  enter .expr
  leftAssoc (leftAssoc (comparison factor) conjunctive) disjunctive

def typedName (role : Role) (type : Parse TypeExpr) (at_ : Position) : Parse Decl := do
  let name ← identifier
  symbol ':'
  let t ← type
  return .typed (← mark at_) role name t

def typedNames (role : Role) (type : Parse TypeExpr) : Parse (List Decl) := do
  let first ← typedName role type (← peek).start
  iterate (fun ds => do
    if ← sees (.punct ',') then
      let _ ← next
      let d ← typedName role type (← peek).start
      return some (ds ++ [d])
    else return none) [first]

def typeRule (g : Grammar) : Parse TypeExpr := do
  enter .type
  let t ← next
  match t.kind with
  | .keyword .int => return .atom (← mark t.start) .int
  | .keyword .char => return .atom (← mark t.start) .char
  | .keyword .bool => return .atom (← mark t.start) .bool
  | .keyword .void => return .atom (← mark t.start) .void
  | .ident name => return .named (← mark t.start) name
  | .punct '(' =>
    let inner ← g.type
    symbol ')'
    return inner
  | .keyword .arr =>
    symbol '['
    let length ← g.expr
    symbol ']'
    let element ← g.type
    return .arr (← mark t.start) length element
  | .keyword .ptr =>
    let target ← g.type
    return .ptr (← mark t.start) target
  | .keyword .record =>
    symbol '('
    let components ← typedNames .component g.type
    symbol ')'
    return .record (← mark t.start) components
  | _ => reject t .type

/-- Arguments of a call, from behind its opening parenthesis. -/
def argsRule (g : Grammar) : Parse (List Expr) := do
  if ← sees (.punct ')') then
    symbol ')'
    return []
  else
    let first ← g.expr
    let args ← iterate (fun es => do
      if ← sees (.punct ',') then
        let _ ← next
        let e ← g.expr
        return some (es ++ [e])
      else return none) [first]
    symbol ')'
    return args

def literal? : Token.Kind → Option Literal
  | .int value => some (.int value)
  | .char value => some (.char value)
  | .str value => some (.str value)
  | .keyword .true => some (.bool true)
  | .keyword .false => some (.bool false)
  | .keyword .none => some .none
  | .keyword .null => some .null
  | _ => none

def primaryRule (g : Grammar) : Parse Expr := do
  enter .primary
  let t ← next
  match literal? t.kind with
  | some value => return .lit (← mark t.start) value
  | none =>
    match t.kind with
    | .ident name =>
      if ← sees (.punct '(') then
        let _ ← next
        let args ← argsRule g
        return .call (← mark t.start) name args
      else return .name (← mark t.start) name
    | .punct '(' =>
      let value ← g.expr
      if ← sees (.punct ':') then
        let _ ← next
        let type ← g.type
        symbol ')'
        return .cast (← mark t.start) value type
      else
        symbol ')'
        return value
    | .punct '\x7b' =>
      let stmts ← g.stmts
      symbol ':'
      let value ← g.expr
      let decls ← do
        if ← sees (.keyword .where) then
          let _ ← next
          g.decls
        else pure []
      symbol '\x7d'
      return .block (← mark t.start) stmts value decls
    | _ => reject t .expression

/-- An atom with its indices and component names. -/
def selectorRule (g : Grammar) : Parse Expr := do
  let first ← primaryRule g
  iterate (fun e => do
    let t ← peek
    match t.kind with
    | .punct '[' =>
      let _ ← next
      let index ← g.expr
      symbol ']'
      return some (.index (← mark t.start) e index)
    | .punct '.' =>
      let _ ← next
      let name ← identifier
      return some (.field (← mark t.start) e name)
    | _ => return none) first

def factorRule (g : Grammar) : Parse Expr := do
  enter .unary
  let t ← peek
  match signs t.kind with
  | some op =>
    let _ ← next
    let operand ← g.factor
    return .unary (← mark t.start) op operand
  | none =>
    match t.kind with
    | .keyword .new =>
      let _ ← next
      symbol '('
      let type ← g.type
      symbol ')'
      return .new (← mark t.start) type
    | .keyword .del =>
      let _ ← next
      symbol '('
      let value ← g.expr
      symbol ')'
      return .del (← mark t.start) value
    | _ => selectorRule g

/-- A statement. It may begin with an expression, which `expr` reads. -/
def stmtRule (expr : Parse Expr) (g : Grammar) : Parse Stmt := do
  enter .stmt
  let t ← peek
  match t.kind with
  | .keyword .if =>
    let _ ← next
    let test ← g.expr
    word .then
    let yes ← g.stmts
    let no ← do
      if ← sees (.keyword .else) then
        let _ ← next
        g.stmts
      else pure []
    word .end
    return .cond (← mark t.start) test yes no
  | .keyword .while =>
    let _ ← next
    let test ← g.expr
    word .do
    let body ← g.stmts
    word .end
    return .loop (← mark t.start) test body
  | _ =>
    let dst ← expr
    if ← sees (.punct '=') then
      let _ ← next
      let src ← g.expr
      return .assign (← mark t.start) dst src
    else return .expr (← mark t.start) dst

def endsStmts : Token.Kind → Bool
  | .punct ':' | .keyword .else | .keyword .end => true
  | _ => false

def closedStmt (expr : Parse Expr) (g : Grammar) : Parse Stmt := do
  let s ← stmtRule expr g
  symbol ';'
  return s

def stmtsRule (expr : Parse Expr) (g : Grammar) : Parse (List Stmt) := do
  let first ← closedStmt expr g
  iterate (fun ss => do
    if endsStmts (← peek).kind then return none
    else
      let s ← closedStmt expr g
      return some (ss ++ [s])) [first]

def paramsRule (g : Grammar) : Parse (List Decl) := do
  if ← sees (.punct ')') then return []
  else typedNames .parameter g.type

/-- A function, from its name on. -/
def functionRule (g : Grammar) (at_ : Position) : Parse Decl := do
  let name ← identifier
  symbol '('
  let params ← paramsRule g
  symbol ')'
  symbol ':'
  let result ← g.type
  if ← sees (.punct '=') then
    let _ ← next
    let body ← g.expr
    return .function (← mark at_) name params result body
  else return .proto (← mark at_) name params result

def declRule (g : Grammar) : Parse Decl := do
  enter .decl
  let t ← next
  let d ← match t.kind with
    | .keyword .typ => typedName .type g.type t.start
    | .keyword .var => typedName .variable g.type t.start
    | .keyword .fun => functionRule g t.start
    | _ => reject t .declaration
  symbol ';'
  return d

def beginsDecl : Token.Kind → Bool
  | .keyword .typ | .keyword .var | .keyword .fun => true
  | _ => false

def declsRule (g : Grammar) : Parse (List Decl) := do
  let first ← declRule g
  iterate (fun ds => do
    if beginsDecl (← peek).kind then
      let d ← declRule g
      return some (ds ++ [d])
    else return none) [first]

/-- The grammar for phrases nested at most this deep. -/
def ofDepth : Nat → Grammar
  | 0 =>
    let stuck {α : Type} (expected : Expected) : Parse α := do reject (← next) expected
    ⟨stuck .expression, stuck .expression, stuck .type, stuck .expression, stuck .declaration⟩
  | n + 1 =>
    let g := ofDepth n
    let factor := factorRule g
    let expr := exprRule factor
    ⟨factor, expr, typeRule g, stmtsRule expr g, declsRule g⟩

end Grammar

namespace Parse

/-- The grammar for what is left of the text. -/
def grammar : Parse Grammar := do
  let s ← get
  return .ofDepth (s.stream.length + 1)

def expr : Parse Expr := do (← grammar).expr

/-- Reads declarations up to the end of the text. -/
def program : Parse Program := do
  let decls ← (← grammar).decls
  let t ← peek
  if t.kind = .eos then return ⟨decls⟩
  else reject (← next) .declaration

end Parse

/-- The program that a text spells, and the state of the parser at the end. -/
def Program.parse (src : String) : Except ParseError Program × Reader :=
  Parse.program.run.run (.ofString src)

end MmixCompiler
