import MmixCompiler.Types.Matching

/-! Containment. A named type contains its definition, an array its elements, a record its components;
a pointer contains nothing. A type on a circle of containment has no size. -/

namespace MmixCompiler.Registry

def parts (r : Registry) (t : TypeId) : List TypeId :=
  match r.get t with
  | .named _ (some d) => [d]
  | .arr _ element => [element]
  | .record fields => fields.map Prod.snd
  | _ => []

/-- Searches from a type, below the types of `path`, for a type that is below itself. Types in `done`
are known to lead to none, and the types found to do so are added. -/
def circleTo (r : Registry) : Nat → List TypeId → List TypeId → TypeId → Bool × List TypeId
  | 0, _, done, _ => (false, done)
  | n + 1, path, done, t =>
    if t ∈ done then (false, done)
    else if t ∈ path then (true, done)
    else
      match allThreaded (fun done part =>
          let (found, done) := r.circleTo n (t :: path) done part
          (!found, done)) done (r.parts t) with
      | (true, done) => (false, t :: done)
      | (false, done) => (true, done)

/-- The first of the given types from which a circle is reached. -/
def firstCircle (r : Registry) : List TypeId → List TypeId → Option TypeId
  | _, [] => none
  | done, t :: ts =>
    match r.circleTo (r.size + 1) [] done t with
    | (true, _) => some t
    | (false, done) => r.firstCircle done ts

def isNamed (r : Registry) (t : TypeId) : Bool :=
  match r.get t with
  | .named _ _ => true
  | _ => false

/-- The first named type from which a circle of containment is reached. -/
def circle? (r : Registry) : Option TypeId :=
  r.firstCircle [] ((List.range r.size).filter r.isNamed)

/-- The bytes of a type whose parts are nested less than `n` deep, if a word can hold their number. -/
def bytesTo (r : Registry) : Nat → TypeId → Option Int
  | 0, _ => none
  | n + 1, t =>
    match r.form t with
    | .int | .char | .bool | .ptr _ => some Word.size
    | .void | .named _ _ => some 0
    | .arr length element => do Word.checked (length * (← r.bytesTo n element))
    | .record fields =>
      fields.foldlM (fun total f => do Word.checked (total + (← r.bytesTo n f.2))) 0

def bytes? (r : Registry) (t : TypeId) : Option Int := r.bytesTo (r.size + 1) t

/-- The bytes of a type, or the greatest number if there are more. -/
def bytes (r : Registry) (t : TypeId) : Int := (r.bytes? t).getD Word.greatest

/-- The bytes of a record before its component at `index`. -/
def fieldOffset (r : Registry) (t : TypeId) (index : Nat) : Int :=
  (((r.fields? t).getD []).take index).foldl (fun offset f => Word.clamp (offset + r.bytes f.2)) 0

end MmixCompiler.Registry
