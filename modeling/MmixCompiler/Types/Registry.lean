import MmixCompiler.Word

/-! Types of values. Types are kept in a registry and refer to each other by number. A named type is
entered before its definition is known, so that a type can refer to itself. -/

namespace MmixCompiler

/-- The number of a type in its registry. -/
abbrev TypeId := Nat

/-- A type over the numbers of its parts. -/
inductive Ty where
  | int | char | bool | void
  | ptr (target : TypeId)
  | arr (length : Int) (element : TypeId)
  | record (fields : List (String × TypeId))
  | named (name : String) (definition : Option TypeId)
deriving DecidableEq, Inhabited

structure Registry where
  types : Array Ty

namespace Registry

/-- The registry of the types without parts. -/
def initial : Registry := ⟨#[.int, .char, .bool, .void]⟩

def int : TypeId := 0
def char : TypeId := 1
def bool : TypeId := 2
def void : TypeId := 3

def size (r : Registry) : Nat := r.types.size

def get (r : Registry) (t : TypeId) : Ty := r.types.getD t .void

def add (r : Registry) (t : Ty) : TypeId × Registry := (r.types.size, ⟨r.types.push t⟩)

/-- The pointer type to a target, entered at its first use. -/
def ptr (r : Registry) (target : TypeId) : TypeId × Registry :=
  match r.types.findIdx? (· = .ptr target) with
  | some t => (t, r)
  | none => r.add (.ptr target)

/-- Defines a named type; any other type stays as it is. -/
def define (r : Registry) (t definition : TypeId) : Registry :=
  match r.get t with
  | .named name _ => ⟨r.types.setIfInBounds t (.named name (some definition))⟩
  | _ => r

def follow (r : Registry) : Nat → TypeId → TypeId
  | 0, t => t
  | n + 1, t =>
    match r.get t with
    | .named _ (some d) => r.follow n d
    | _ => t

/-- The type behind the names. A type that is only names for itself is some name on its circle. -/
def actual (r : Registry) (t : TypeId) : TypeId := r.follow r.size t

def form (r : Registry) (t : TypeId) : Ty := r.get (r.actual t)

def isInt (r : Registry) (t : TypeId) : Bool := r.form t = .int

def isChar (r : Registry) (t : TypeId) : Bool := r.form t = .char

def isBool (r : Registry) (t : TypeId) : Bool := r.form t = .bool

def isVoid (r : Registry) (t : TypeId) : Bool := r.form t = .void

def pointee? (r : Registry) (t : TypeId) : Option TypeId :=
  match r.form t with
  | .ptr target => some target
  | _ => none

def element? (r : Registry) (t : TypeId) : Option TypeId :=
  match r.form t with
  | .arr _ element => some element
  | _ => none

def fields? (r : Registry) (t : TypeId) : Option (List (String × TypeId)) :=
  match r.form t with
  | .record fields => some fields
  | _ => none

def isPtr (r : Registry) (t : TypeId) : Bool := (r.pointee? t).isSome

def isVoidPtr (r : Registry) (t : TypeId) : Bool := (r.pointee? t).any r.isVoid

/-- The types that fill one word and can be passed around. -/
def isWord (r : Registry) (t : TypeId) : Bool := r.isInt t || r.isChar t || r.isBool t || r.isPtr t

/-- The types that casts connect. -/
def isCastable (r : Registry) (t : TypeId) : Bool := r.isInt t || r.isChar t || r.isPtr t

/-- The source text of a type whose parts are nested less than `n` deep. -/
def textTo (r : Registry) : Nat → TypeId → String
  | 0, _ => ""
  | n + 1, t =>
    match r.get t with
    | .int => "int"
    | .char => "char"
    | .bool => "bool"
    | .void => "void"
    | .ptr target => "ptr " ++ r.textTo n target
    | .arr length element => "arr[" ++ toString length ++ "] " ++ r.textTo n element
    | .record fields =>
      "rec(" ++ ", ".intercalate (fields.map fun f => f.1 ++ ": " ++ r.textTo n f.2) ++ ")"
    | .named name _ => name

/-- A type in source text. Named types appear by name. -/
def text (r : Registry) (t : TypeId) : String := r.textTo (r.size + 1) t

end Registry
end MmixCompiler
