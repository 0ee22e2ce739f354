import MmixCompiler.Register.Interference

/-! The order in which temporaries are put on a stack, so that they take registers from the last to the
first. A queue has an entry for every temporary that is left, with the number of its neighbours that
are left. Where that number goes down there is a new entry, and the old one stays behind: it is
skipped when it comes out. If a temporary comes out that has as many neighbours as there are
registers, all have, and the one with the most is put on the stack in its place. -/

namespace MmixCompiler.Interference

/-- Temporaries with the number of their neighbours among them. -/
abbrev Degrees := List (Temp × Nat)

/-- Whether one entry comes before another: fewer neighbours, then an older temporary. -/
def before (a b : Temp × Nat) : Bool := a.2 < b.2 || (a.2 == b.2 && a.1 < b.1)

def greatest (a : Temp × Nat) (rest : Degrees) : Temp × Nat :=
  rest.foldl (fun a b => if before a b then b else a) a

theorem foldl_mem {α : Type} {f : α → α → α} (hf : ∀ a b, f a b = a ∨ f a b = b) (a : α)
    (rest : List α) : rest.foldl f a ∈ a :: rest := by
  induction rest generalizing a with
  | nil => simp
  | cons b rest ih =>
    have := ih (f a b)
    rw [List.foldl_cons]
    rcases hf a b with h | h <;> grind

/-- A heap: no entry comes before one that it is below. -/
inductive Queue where
  | empty
  | node (left : Queue) (entry : Temp × Nat) (right : Queue)

namespace Queue

def toList : Queue → Degrees
  | .empty => []
  | .node l e r => e :: (l.toList ++ r.toList)

def merge : Queue → Queue → Queue
  | .empty, q => q
  | .node l a r, .empty => .node l a r
  | .node l a r, .node l' b r' =>
    if before b a then .node (merge (.node l a r) r') b l' else .node (merge r (.node l' b r')) a l
termination_by q q' => q.toList.length + q'.toList.length
decreasing_by
  all_goals
    simp only [toList, List.length_cons, List.length_append]
    omega

def push (q : Queue) (e : Temp × Nat) : Queue := merge (.node .empty e .empty) q

def pop? : Queue → Option ((Temp × Nat) × Queue)
  | .empty => none
  | .node l e r => some (e, l.merge r)

theorem merge_perm (q q' : Queue) : (q.merge q').toList.Perm (q.toList ++ q'.toList) := by
  fun_induction merge q q' with
  | case1 q => exact .refl _
  | case2 l a r => simp [toList]
  | case3 l a r l' b r' h ih =>
    simp only [toList] at ih ⊢
    refine ((ih.append_right _).cons b).trans ?_
    rw [List.append_assoc]
    exact List.perm_middle.symm.trans ((List.perm_append_comm.cons b).append_left _)
  | case4 l a r l' b r' h ih =>
    simp only [toList] at ih ⊢
    refine ((ih.append_right _).cons a).trans ?_
    rw [List.cons_append, List.append_assoc l.toList]
    exact List.perm_append_comm.cons a

theorem push_perm (q : Queue) (e : Temp × Nat) : (q.push e).toList.Perm (e :: q.toList) := merge_perm ..

theorem pop?_perm {q q' : Queue} {e : Temp × Nat} (h : q.pop? = some (e, q')) :
    q.toList.Perm (e :: q'.toList) := by
  cases q with
  | empty => cases h
  | node l a r =>
    obtain ⟨rfl, rfl⟩ := Prod.mk.inj (Option.some.inj h)
    exact ((merge_perm l r).cons a).symm

end Queue

structure Worklist where
  /-- Every temporary with the number of its neighbours that are left. -/
  degrees : Degrees
  queue : Queue
  removed : TempSet := []
  /-- The last put first, each with the neighbours it had left. -/
  stack : Degrees := []

namespace Worklist

def ofGraph (g : Interference) : Worklist :=
  let degrees := g.nodes.map fun t => (t, g.degree t)
  { degrees, queue := degrees.foldl Queue.push .empty }

def left (w : Worklist) : Degrees := w.degrees.filter fun e => !w.removed.contains e.1

/-- Whether an entry is of a temporary that has been removed or has fewer neighbours by now. -/
def stale (w : Worklist) (e : Temp × Nat) : Bool :=
  w.removed.contains e.1 || w.degrees.lookup e.1 != some e.2

/-- Takes away a neighbour of a temporary, if that is left. -/
def lower (w : Worklist) (t : Temp) : Worklist :=
  if w.removed.contains t then w
  else match w.degrees.lookup t with
    | none => w
    | some d =>
      { w with
        degrees := w.degrees.map fun e => if e.1 = t then (t, e.2 - 1) else e
        queue := w.queue.push (t, d - 1) }

def remove (g : Interference) (w : Worklist) (e : Temp × Nat) : Worklist :=
  (g.neighbours e.1).foldl lower { w with removed := .insert e.1 w.removed, stack := e :: w.stack }

/-- The temporary that is left with the most neighbours. -/
def busiest (w : Worklist) (e : Temp × Nat) : Temp × Nat :=
  match w.left with
  | [] => e
  | a :: rest => greatest a rest

/-- Removes the temporary of an entry that came out, or the busiest one in its place. The entry goes
back then. -/
def take (g : Interference) (registers : Nat) (w : Worklist) (e : Temp × Nat) : Worklist :=
  if e.2 < registers then w.remove g e
  else
    let most := w.busiest e
    { w with queue := if most.1 = e.1 then w.queue else w.queue.push e }.remove g most

/-- Bounds the steps to come: an entry for every neighbour of a temporary that is left. -/
def weight (g : Interference) : List Temp → Nat
  | [] => 0
  | t :: ts => (g.neighbours t).length + 1 + weight g ts

def work (g : Interference) (w : Worklist) : Nat :=
  w.queue.toList.length + weight g (w.left.map Prod.fst)

theorem weight_filter_le (g : Interference) (t : Temp) (ts : List Temp) :
    weight g (ts.filter (· ≠ t)) ≤ weight g ts := by
  induction ts with
  | nil => exact Nat.le_refl _
  | cons u us ih =>
    rw [List.filter_cons]
    split <;> simp only [weight] <;> omega

theorem weight_filter_lt {g : Interference} {t : Temp} {ts : List Temp} (h : t ∈ ts) :
    weight g (ts.filter (· ≠ t)) + (g.neighbours t).length < weight g ts := by
  induction ts with
  | nil => cases h
  | cons u us ih =>
    have hle := weight_filter_le g t us
    rw [List.filter_cons]
    split
    · next hu =>
      have hlt := ih ((List.mem_cons.mp h).resolve_left fun heq => by simp [heq] at hu)
      simp only [weight]
      omega
    · next hu =>
      obtain rfl : u = t := by simpa using hu
      simp only [weight]
      omega

variable {g : Interference} {w : Worklist} {e : Temp × Nat}

theorem mem_left : e ∈ w.left ↔ e ∈ w.degrees ∧ e.1 ∉ w.removed := by
  simp [left]

theorem lower_cases (w : Worklist) (t : Temp) : (∀ e ∈ w.left, e.1 ≠ t) ∧ w.lower t = w ∨
    ∃ d, w.degrees.lookup t = some d ∧ w.lower t =
      { w with
        degrees := w.degrees.map fun e => if e.1 = t then (t, e.2 - 1) else e
        queue := w.queue.push (t, d - 1) } := by
  unfold lower
  split
  · next hremoved =>
    exact .inl ⟨fun e he heq => (mem_left.mp he).2 (heq ▸ List.contains_iff_mem.mp hremoved), rfl⟩
  · split
    · next hnone =>
      refine .inl ⟨fun e he heq => ?_, rfl⟩
      have hne := List.lookup_eq_none_iff.mp hnone e (mem_left.mp he).1
      simp [heq] at hne
    · next d hd => exact .inr ⟨d, hd, rfl⟩

theorem left_lower (w : Worklist) (t : Temp) :
    (w.lower t).left = w.left.map fun e => if e.1 = t then (t, e.2 - 1) else e := by
  obtain ⟨hnone, hw⟩ | ⟨d, -, hw⟩ := lower_cases w t
  · rw [hw]
    exact (List.map_id' w.left).symm.trans (List.map_congr_left fun e he => (if_neg (hnone e he)).symm)
  · simp only [hw, left, List.filter_map]
    congr 1
    refine List.filter_congr fun e _ => ?_
    simp only [Function.comp_apply]
    split <;> simp [*]

theorem left_foldl_lower (w : Worklist) (ts : List Temp) :
    (ts.foldl lower w).left = w.left.map fun e => (e.1, e.2 - ts.count e.1) := by
  induction ts generalizing w with
  | nil => simp
  | cons t ts ih =>
    rw [List.foldl_cons, ih, left_lower, List.map_map]
    refine List.map_congr_left fun e _ => ?_
    by_cases h : e.1 = t
    · simp [h, Nat.sub_sub, Nat.add_comm]
    · simp [h, Ne.symm h]

theorem left_remove (g : Interference) (w : Worklist) (e : Temp × Nat) : (w.remove g e).left =
    (w.left.filter (·.1 ≠ e.1)).map fun x => (x.1, x.2 - (g.neighbours e.1).count x.1) := by
  rw [remove, left_foldl_lower]
  congr 1
  simp only [left, List.filter_filter]
  refine List.filter_congr fun x _ => ?_
  rw [Bool.eq_iff_iff]
  simp [TempSet.mem_insert]

theorem length_queue_lower (w : Worklist) (t : Temp) :
    (w.lower t).queue.toList.length ≤ w.queue.toList.length + 1 := by
  obtain ⟨-, hw⟩ | ⟨d, -, hw⟩ := lower_cases w t
  · rw [hw]
    exact Nat.le_succ _
  · rw [hw]
    exact Nat.le_of_eq (Queue.push_perm ..).length_eq

theorem length_queue_remove (g : Interference) (w : Worklist) (e : Temp × Nat) :
    (w.remove g e).queue.toList.length ≤ w.queue.toList.length + (g.neighbours e.1).length := by
  have hfold : ∀ (ts : List Temp) (w : Worklist),
      (ts.foldl lower w).queue.toList.length ≤ w.queue.toList.length + ts.length := by
    intro ts
    induction ts with
    | nil => exact fun w => Nat.le_refl _
    | cons t ts ih =>
      intro w
      have hfirst := length_queue_lower w t
      have hrest := ih (w.lower t)
      rw [List.foldl_cons, List.length_cons]
      omega
  exact hfold ..

theorem work_remove_lt (h : e ∈ w.left) : (w.remove g e).work g < w.work g := by
  have hqueue := length_queue_remove g w e
  have hfst : (w.remove g e).left.map Prod.fst = (w.left.map Prod.fst).filter (· ≠ e.1) := by
    rw [left_remove, List.map_map, List.filter_map]
    rfl
  have hweight := weight_filter_lt (g := g) (List.mem_map_of_mem (f := Prod.fst) h)
  rw [work, work, hfst]
  omega

theorem mem_left_of_not_stale (h : ¬ w.stale e) : e ∈ w.left := by
  simp only [stale, Bool.or_eq_true, bne_iff_ne, not_or, Decidable.not_not, List.contains_iff_mem] at h
  obtain ⟨ds, es, hdegrees, -⟩ := List.lookup_eq_some_iff.mp h.2
  exact mem_left.mpr ⟨by simp [hdegrees], h.1⟩

theorem busiest_mem (h : e ∈ w.left) : w.busiest e ∈ w.left := by
  unfold busiest
  split
  · next hnil => exact absurd h (hnil ▸ List.not_mem_nil)
  · next a rest hleft =>
    rw [hleft]
    exact foldl_mem (fun a b => by split <;> simp) a rest

theorem work_take_le (registers : Nat) (h : e ∈ w.left) : (w.take g registers e).work g ≤ w.work g := by
  unfold take
  split
  · exact Nat.le_of_lt (work_remove_lt h)
  · next hmany =>
    let blocked := { w with queue := if (w.busiest e).1 = e.1 then w.queue else w.queue.push e }
    have hlt : (blocked.remove g (w.busiest e)).work g < blocked.work g := work_remove_lt (busiest_mem h)
    have hle : blocked.work g ≤ w.work g + 1 := by
      simp only [blocked, work, left]
      split
      · omega
      · have hlen := (Queue.push_perm w.queue e).length_eq
        rw [List.length_cons] at hlen
        omega
    exact Nat.le_of_lt_succ (Nat.lt_of_lt_of_le hlt hle)

theorem work_of_pop? {queue : Queue} (h : w.queue.pop? = some (e, queue)) :
    { w with queue }.work g < w.work g := by
  have hlen := (Queue.pop?_perm h).length_eq
  rw [List.length_cons] at hlen
  exact Nat.add_lt_add_right (hlen ▸ Nat.lt_succ_self _) _

def run (g : Interference) (registers : Nat) (w : Worklist) : Degrees :=
  match _ : w.queue.pop? with
  | none => w.stack
  | some (e, queue) =>
    let rest := { w with queue }
    if rest.stale e then rest.run g registers
    else (rest.take g registers e).run g registers
termination_by w.work g
decreasing_by
  · next h _ => exact work_of_pop? h
  · next h hstale =>
    exact Nat.lt_of_le_of_lt (work_take_le registers (mem_left_of_not_stale hstale)) (work_of_pop? h)

end Worklist
end MmixCompiler.Interference
