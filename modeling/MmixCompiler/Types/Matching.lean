import MmixCompiler.Types.Registry

/-! Structural equality of types. Two types match if nothing tells them apart when names are followed
and pointers, elements and components compared; a pair that is already being compared cannot be told
apart that way. -/

namespace MmixCompiler

/-- Tests a list of pairs in order up to the first that fails, threading what has been seen. -/
def allThreaded {α σ : Type} (test : σ → α → Bool × σ) : σ → List α → Bool × σ
  | s, [] => (true, s)
  | s, a :: as =>
    match test s a with
    | (true, s) => allThreaded test s as
    | (false, s) => (false, s)

namespace Registry

/-- Compares two types, given the pairs seen before, to the depth `n`. -/
def matchTo (r : Registry) : Nat → List (TypeId × TypeId) → TypeId × TypeId →
    Bool × List (TypeId × TypeId)
  | 0, seen, _ => (true, seen)
  | n + 1, seen, (s, t) =>
    let a := r.actual s
    let b := r.actual t
    if a = b ∨ (a, b) ∈ seen then (true, seen)
    else
      let seen := (a, b) :: seen
      match r.get a, r.get b with
      | .int, .int | .char, .char | .bool, .bool | .void, .void => (true, seen)
      | .ptr x, .ptr y => r.matchTo n seen (x, y)
      | .arr k x, .arr l y => if k = l then r.matchTo n seen (x, y) else (false, seen)
      | .record xs, .record ys =>
        if xs.length = ys.length then
          allThreaded (r.matchTo n) seen ((xs.map Prod.snd).zip (ys.map Prod.snd))
        else (false, seen)
      | _, _ => (false, seen)

/-- Whether two types have the same structure. A comparison sees every pair at most once, so it is
no deeper than there are pairs. -/
def equiv (r : Registry) (s t : TypeId) : Bool :=
  (r.matchTo (r.size * r.size + 1) [] (s, t)).1

end Registry
end MmixCompiler
