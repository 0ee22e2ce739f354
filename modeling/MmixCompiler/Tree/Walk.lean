import MmixCompiler.Tree.Basic

/-! Walking a tree. The walk of a tree is the list of its nodes in source order, each entered before
its parts and left after them; a block enters its declarations, then its statements, then its value.
A pass over a tree is a fold over this list. -/

namespace MmixCompiler

inductive Node where
  | decl (d : Decl)
  | type (t : TypeExpr)
  | stmt (s : Stmt)
  | expr (e : Expr)

def Node.mark : Node → Mark
  | .decl d => d.mark
  | .type t => t.mark
  | .stmt s => s.mark
  | .expr e => e.mark

def Node.id (n : Node) : NodeId := n.mark.id

inductive Visit where
  | enter (n : Node)
  | leave (n : Node)

/-- The walk of a node whose parts have the walk `inner`. -/
def Node.around (n : Node) (inner : List Visit) : List Visit :=
  .enter n :: (inner ++ [.leave n])

mutual

/-- The walk of a declaration. Function bodies are part of it only if `bodies` is set. -/
def Decl.walk (bodies : Bool) : Decl → List Visit
  | d@(.typed _ _ _ type) => Node.around (.decl d) (type.walk bodies)
  | d@(.proto _ _ params result) =>
    Node.around (.decl d) (Decl.walkAll bodies params ++ result.walk bodies)
  | d@(.function _ _ params result body) =>
    Node.around (.decl d) (Decl.walkAll bodies params ++ result.walk bodies ++
      (if bodies then body.walk bodies else []))

def TypeExpr.walk (bodies : Bool) : TypeExpr → List Visit
  | t@(.atom _ _) => Node.around (.type t) []
  | t@(.named _ _) => Node.around (.type t) []
  | t@(.ptr _ target) => Node.around (.type t) (target.walk bodies)
  | t@(.arr _ length element) => Node.around (.type t) (length.walk bodies ++ element.walk bodies)
  | t@(.record _ components) => Node.around (.type t) (Decl.walkAll bodies components)

def Stmt.walk (bodies : Bool) : Stmt → List Visit
  | s@(.expr _ value) => Node.around (.stmt s) (value.walk bodies)
  | s@(.assign _ dst src) => Node.around (.stmt s) (dst.walk bodies ++ src.walk bodies)
  | s@(.cond _ test yes no) =>
    Node.around (.stmt s) (test.walk bodies ++ Stmt.walkAll bodies yes ++ Stmt.walkAll bodies no)
  | s@(.loop _ test body) => Node.around (.stmt s) (test.walk bodies ++ Stmt.walkAll bodies body)

def Expr.walk (bodies : Bool) : Expr → List Visit
  | e@(.lit _ _) => Node.around (.expr e) []
  | e@(.name _ _) => Node.around (.expr e) []
  | e@(.call _ _ args) => Node.around (.expr e) (Expr.walkAll bodies args)
  | e@(.binary _ _ lhs rhs) => Node.around (.expr e) (lhs.walk bodies ++ rhs.walk bodies)
  | e@(.unary _ _ operand) => Node.around (.expr e) (operand.walk bodies)
  | e@(.cast _ value type) => Node.around (.expr e) (value.walk bodies ++ type.walk bodies)
  | e@(.new _ type) => Node.around (.expr e) (type.walk bodies)
  | e@(.del _ value) => Node.around (.expr e) (value.walk bodies)
  | e@(.index _ array index) => Node.around (.expr e) (array.walk bodies ++ index.walk bodies)
  | e@(.field _ record _) => Node.around (.expr e) (record.walk bodies)
  | e@(.block _ stmts value decls) =>
    Node.around (.expr e)
      (Decl.walkAll bodies decls ++ Stmt.walkAll bodies stmts ++ value.walk bodies)

def Decl.walkAll (bodies : Bool) : List Decl → List Visit
  | [] => []
  | d :: ds => d.walk bodies ++ Decl.walkAll bodies ds

def Stmt.walkAll (bodies : Bool) : List Stmt → List Visit
  | [] => []
  | s :: ss => s.walk bodies ++ Stmt.walkAll bodies ss

def Expr.walkAll (bodies : Bool) : List Expr → List Visit
  | [] => []
  | e :: es => e.walk bodies ++ Expr.walkAll bodies es

end

def Program.walk (p : Program) : List Visit := Decl.walkAll true p.decls

def Program.allDecls (p : Program) : List Decl :=
  p.walk.filterMap fun
    | .enter (.decl d) => some d
    | _ => none

/-- The functions with a body, in the order in which they are left: nested ones first. -/
def Program.bodies (p : Program) : List (Decl × Expr) :=
  p.walk.filterMap fun
    | .leave (.decl d@(.function _ _ _ _ body)) => some (d, body)
    | _ => none

/-- The part of a walk up to and including the first visit of the node `stop`, and whether there is
such a visit. -/
def Visit.until (stop : NodeId) : List Visit → List Visit × Bool
  | [] => ([], false)
  | v :: vs =>
    let n := match v with
      | .enter n | .leave n => n
    if n.id = stop then ([v], true)
    else
      let r := Visit.until stop vs
      (v :: r.1, r.2)

end MmixCompiler
