import MmixCompiler.Scope.Error

/-! Nested scopes. A name stands for its innermost declaration, whatever the category of that. -/

namespace MmixCompiler

def Decl.category : Decl → Category
  | .typed _ .type .. => .type
  | .typed .. => .variable
  | .proto .. | .function .. => .function

/-- The declarations of one scope, latest first. -/
abbrev Scope := List Decl

def Scope.find? (s : Scope) (name : String) : Option Decl := List.find? (fun d => d.name = name) s

/-- The open scopes: the innermost, and those around it from the inside out. The outermost scope is
always open. -/
structure Scopes where
  inner : Scope
  outer : List Scope

namespace Scopes

def empty : Scopes := ⟨[], []⟩

def push (s : Scopes) : Scopes := ⟨[], s.inner :: s.outer⟩

/-- Closes the innermost scope, except the outermost one. -/
def pop (s : Scopes) : Scopes :=
  match s.outer with
  | [] => s
  | scope :: outer => ⟨scope, outer⟩

def insert (s : Scopes) (d : Decl) : Except SemanticError Scopes :=
  match s.inner.find? d.name with
  | some _ => .error ⟨d.position, .redeclaration d.name⟩
  | none => .ok { s with inner := d :: s.inner }

def declare (s : Scopes) (ds : List Decl) : Except SemanticError Scopes := ds.foldlM insert s

def find? (s : Scopes) (name : String) : Option Decl :=
  (s.inner :: s.outer).findSome? (Scope.find? · name)

/-- The innermost declaration of a name, which has to be of the expected category. -/
def lookup (s : Scopes) (name : String) (expected : Category) (position : Position) :
    Except SemanticError Decl :=
  match s.find? name with
  | none => .error ⟨position, .undeclared name⟩
  | some d =>
    if d.category = expected then .ok d
    else .error ⟨position, .wrongCategory name expected d.category⟩

end Scopes
end MmixCompiler
