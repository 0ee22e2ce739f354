import MmixCompiler.Scope.Binding
import MmixCompiler.Tree.Walk
import MmixCompiler.Types.Constant
import MmixCompiler.Types.Containment

/-! The types that a program writes down. Every type declaration is entered by name first; then each
type expression is resolved once, with its array lengths folded; then no type may contain itself or
be larger than a word can say. -/

namespace MmixCompiler

/-- The types of a program's nodes. A type declaration has the type it names, a function that of its
result. `fieldIndices` tells which component a selection takes. -/
structure Typing where
  registry : Registry := .initial
  declTypes : Std.TreeMap NodeId TypeId := ∅
  typeTypes : Std.TreeMap NodeId TypeId := ∅
  exprTypes : Std.TreeMap NodeId TypeId := ∅
  fieldIndices : Std.TreeMap NodeId Nat := ∅

/-- The state of typing: what is known so far, the declarations of the named types, and the arrays
and records with their places, latest first. -/
structure Typer where
  typing : Typing := {}
  namedDecls : List (TypeId × Decl) := []
  composites : List (TypeId × Position) := []

abbrev Infer := StateT Typer (Except SemanticError)

namespace Infer

def registry : Infer Registry := return (← get).typing.registry

def describe (t : TypeId) : Infer String := return (← registry).text t

def fail {α : Type} (position : Position) (fault : SemanticFault) : Infer α :=
  throw ⟨position, fault⟩

def add (t : Ty) : Infer TypeId :=
  modifyGet fun s =>
    let (id, r) := s.typing.registry.add t
    (id, { s with typing := { s.typing with registry := r } })

def ptr (target : TypeId) : Infer TypeId :=
  modifyGet fun s =>
    let (id, r) := s.typing.registry.ptr target
    (id, { s with typing := { s.typing with registry := r } })

def define (t definition : TypeId) : Infer Unit :=
  modify fun s =>
    { s with typing := { s.typing with registry := s.typing.registry.define t definition } }

/-- Notes an array or record type. -/
def composite (position : Position) (t : Ty) : Infer TypeId := do
  let id ← add t
  modify fun s => { s with composites := (id, position) :: s.composites }
  return id

/-- The type of a type expression, found out at most once. -/
def ofTypeOnce (id : NodeId) (find : Infer TypeId) : Infer TypeId := do
  match (← get).typing.typeTypes[id]? with
  | some t => return t
  | none =>
    let t ← find
    modify fun s => { s with typing := { s.typing with typeTypes := s.typing.typeTypes.insert id t } }
    return t

/-- The type of a declaration, found out at most once. -/
def ofDeclOnce (id : NodeId) (find : Infer TypeId) : Infer TypeId := do
  match (← get).typing.declTypes[id]? with
  | some t => return t
  | none =>
    let t ← find
    modify fun s => { s with typing := { s.typing with declTypes := s.typing.declTypes.insert id t } }
    return t

def named (d : Decl) : Infer TypeId :=
  ofDeclOnce d.id do
    let t ← add (.named d.name none)
    modify fun s => { s with namedDecls := (t, d) :: s.namedDecls }
    return t

def binding (bindings : Bindings) (mark : Mark) (name : String) : Infer Decl :=
  match bindings[mark.id]? with
  | some d => return d
  | none => fail mark.position (.undeclared name)

end Infer

open Infer

/-- The type of a component, which has to need storage. -/
def Infer.storage (position : Position) (name : String) (find : Infer TypeId) : Infer TypeId := do
  let t ← find
  if (← registry).isVoid t then fail position (.type (.voidStorage name))
  else return t

def AtomType.id : AtomType → TypeId
  | .int => Registry.int
  | .char => Registry.char
  | .bool => Registry.bool
  | .void => Registry.void

section
variable (bindings : Bindings) (follow : Decl → Infer TypeId)

mutual

/-- The type that a type expression denotes. The type of a declaration that is not known yet is asked
of `follow`. -/
def TypeExpr.resolve : TypeExpr → Infer TypeId
  | .atom mark type => ofTypeOnce mark.id (pure type.id)
  | .named mark name =>
    ofTypeOnce mark.id do
      let d ← binding bindings mark name
      match (← get).typing.declTypes[d.id]? with
      | some t => return t
      | none => follow d
  | .ptr mark target => ofTypeOnce mark.id do ptr (← target.resolve)
  | .arr mark length element =>
    ofTypeOnce mark.id do
      let t ← element.resolve
      if (← registry).isVoid t then fail element.position (.type .voidElement)
      else
        let n ← length.constant
        if n ≤ 0 then fail mark.position (.arrayLength n)
        else composite mark.position (.arr n t)
  | .record mark components =>
    ofTypeOnce mark.id do composite mark.position (.record (← Decl.resolveFields [] components))

/-- Names and types of components, which are to differ from the names before them. -/
def Decl.resolveFields (names : List String) : List Decl → Infer (List (String × TypeId))
  | [] => return []
  | d :: ds => do
    if d.name ∈ names then fail d.position (.redeclaration d.name)
    else
      let t ← d.resolve
      return (d.name, t) :: (← Decl.resolveFields (d.name :: names) ds)

/-- The type of a declaration. A type declaration is defined at this point, and any other has to need
storage unless it is a function. -/
def Decl.resolve : Decl → Infer TypeId
  | .typed mark .type name type => do
    let t ← named (.typed mark .type name type)
    define t (← type.resolve)
    return t
  | .typed mark _ name type => storage mark.position name (ofDeclOnce mark.id type.resolve)
  | .proto mark _ _ result => ofDeclOnce mark.id result.resolve
  | .function mark _ _ result _ => ofDeclOnce mark.id result.resolve

end

def Decl.typeVia (d : Decl) : Infer TypeId :=
  match d with
  | .typed _ .type .. => named d
  | _ => ofDeclOnce d.id (d.type.resolve bindings follow)

end

/-- The type of a declaration, reached through at most `n` declarations other than types. -/
def Decl.typeTo (bindings : Bindings) : Nat → Decl → Infer TypeId
  | 0, d => fail d.position (.type (.endless d.name))
  | n + 1, d => d.typeVia bindings (Decl.typeTo bindings n)

def Program.typeOf (p : Program) (bindings : Bindings) (d : Decl) : Infer TypeId :=
  Decl.typeTo bindings (p.allDecls.length + 1) d

def Program.enterNames (p : Program) : Infer Unit :=
  p.allDecls.forM fun
    | d@(.typed _ .type ..) => do let _ ← named d
    | _ => return

/-- Resolves every declaration and type expression of a program in source order. -/
def Program.resolveAll (p : Program) (bindings : Bindings) : Infer Unit :=
  p.walk.forM fun
    | .enter (.decl d) => do let _ ← d.resolve bindings (p.typeOf bindings)
    | .enter (.type t) => do let _ ← t.resolve bindings (p.typeOf bindings)
    | _ => return

/-- No type may contain itself. -/
def Infer.checkCircles : Infer Unit := do
  let s ← get
  match s.typing.registry.circle? with
  | none => return
  | some t =>
    let (name, position) := match s.namedDecls.lookup t with
      | some d => (d.name, d.position)
      | none => ("", {})
    fail position (.type (.containsItself name))

/-- The bytes of every array and record have to fit a word. -/
def Infer.checkBytes : Infer Unit := do
  let s ← get
  s.composites.reverse.forM fun (t, position) => do
    if (s.typing.registry.bytes? t).isNone then
      fail position (.type (.tooLarge (← describe t)))

/-- The types that a program writes down. -/
def Program.resolveTypes (p : Program) (bindings : Bindings) : Infer Unit := do
  p.enterNames
  p.resolveAll bindings
  checkCircles
  checkBytes

end MmixCompiler
