import MmixCompiler.Supply

/-! Finite sets of temporaries, as lists in increasing order. -/

namespace MmixCompiler

abbrev TempSet := List Temp

namespace TempSet

def insert (t : Temp) : TempSet → TempSet
  | [] => [t]
  | u :: us => if t < u then t :: u :: us else if t = u then u :: us else u :: insert t us

def ofList (ts : List Temp) : TempSet := ts.foldr insert []

def union : TempSet → TempSet → TempSet
  | [], us => us
  | t :: ts, [] => t :: ts
  | t :: ts, u :: us =>
    if t < u then t :: union ts (u :: us)
    else if t = u then t :: union ts us
    else u :: union (t :: ts) us
termination_by ts us => ts.length + us.length

theorem mem_insert {a t : Temp} {s : TempSet} : a ∈ insert t s ↔ a = t ∨ a ∈ s := by
  induction s with
  | nil => simp [insert]
  | cons u us ih =>
    unfold insert
    split
    · simp
    · split
      · subst t; simp
      · simp only [List.mem_cons, ih]
        exact or_left_comm

theorem mem_ofList {a : Temp} {ts : List Temp} : a ∈ ofList ts ↔ a ∈ ts := by
  induction ts with
  | nil => simp [ofList]
  | cons t ts ih =>
    simp only [ofList, List.foldr_cons, mem_insert, List.mem_cons] at ih ⊢
    rw [ih]

theorem mem_union {a : Temp} {s u : TempSet} : a ∈ union s u ↔ a ∈ s ∨ a ∈ u := by
  fun_induction union s u with
  | case1 => simp
  | case2 => simp
  | case3 t ts u us h ih => simp only [List.mem_cons, ih]; grind
  | case4 t ts us h ih => simp only [List.mem_cons, ih]; grind
  | case5 t ts u us h h' ih => simp only [List.mem_cons, ih]; grind

end TempSet
end MmixCompiler
