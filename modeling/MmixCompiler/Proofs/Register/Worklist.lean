import MmixCompiler.Proofs.Register.Interference
import MmixCompiler.Register.Coloring

/-! The worklist finds the order of a direct search: the temporary with the fewest neighbours left goes
next, and the one with the most if all have too many. Every temporary that is left has an entry with the
number of its neighbours, so the first entry that is not stale comes before all of these. -/

namespace MmixCompiler.Interference

open List

def least (a : Temp × Nat) (rest : Degrees) : Temp × Nat :=
  rest.foldl (fun a b => if before b a then b else a) a

def pick (registers : Nat) (a : Temp × Nat) (rest : Degrees) : Temp × Nat :=
  let few := least a rest
  if few.2 < registers then few else greatest a rest

def drop (g : Interference) (t : Temp) (rest : Degrees) : Degrees :=
  let near := g.neighbours t
  (rest.filter fun e => e.1 ≠ t).map fun e => (e.1, if near.contains e.1 then e.2 - 1 else e.2)

/-- The order in which temporaries are put on the stack, with the neighbours they had left. -/
def simplify (g : Interference) (registers : Nat) : Nat → Degrees → Degrees
  | 0, _ => []
  | _ + 1, [] => []
  | n + 1, a :: rest =>
    let next := pick registers a rest
    next :: simplify g registers n (g.drop next.1 (a :: rest))

/-- All nodes in the order in which they are put on the stack. -/
def order (g : Interference) (registers : Nat) : Degrees :=
  g.simplify registers (g.nodes.map fun t => (t, g.degree t)).length
    (g.nodes.map fun t => (t, g.degree t))

variable {g : Interference} {registers : Nat} {t : Temp} {a b c e : Temp × Nat} {rest ds : Degrees}

theorem not_before_trans (hab : ¬ before b a) (hbc : ¬ before c b) : ¬ before c a := by grind [before]

theorem not_before_of_before (h : before a b) : ¬ before b a := by grind [before]

theorem eq_of_not_before (hab : ¬ before a b) (hba : ¬ before b a) : a = b := by grind [before]

theorem not_before_least (a : Temp × Nat) (rest : Degrees) : ∀ e ∈ a :: rest, ¬ before e (least a rest) := by
  induction rest generalizing a with
  | nil => simp [least, before]
  | cons b rest ih =>
    have hrest := ih (if before b a then b else a)
    simp only [least, foldl_cons, forall_mem_cons] at hrest ⊢
    have := hrest.1
    refine ⟨?_, ?_, hrest.2⟩ <;> grind [before]

theorem pick_mem : pick registers e rest ∈ e :: rest := by
  unfold pick
  simp only
  split
  · exact foldl_mem (fun a b => by split <;> simp) e rest
  · exact foldl_mem (fun a b => by split <;> simp) e rest

theorem map_fst_drop : (g.drop t ds).map Prod.fst = (ds.map Prod.fst).filter (· ≠ t) := by
  simp only [drop, map_map, filter_map]
  rfl

theorem map_fst_drop_of_nodup (hnodup : (ds.map Prod.fst).Nodup) :
    (g.drop t ds).map Prod.fst = (ds.map Prod.fst).erase t := by
  rw [map_fst_drop, hnodup.erase_eq_filter]
  exact filter_congr fun u _ => Bool.eq_iff_iff.mpr (by simp)

theorem length_drop (hnodup : (ds.map Prod.fst).Nodup) (he : e ∈ ds) :
    (g.drop e.1 ds).length = ds.length - 1 := by
  rw [← length_map (f := Prod.fst), map_fst_drop_of_nodup hnodup,
    length_erase_of_mem (mem_map_of_mem he), length_map]

namespace Queue

variable {q q' : Queue}

/-- No entry comes before one that it is below. -/
def Ordered : Queue → Prop
  | .empty => True
  | .node l e r => (∀ x ∈ l.toList ++ r.toList, ¬ before x e) ∧ l.Ordered ∧ r.Ordered

theorem mem_merge : e ∈ (q.merge q').toList ↔ e ∈ q.toList ∨ e ∈ q'.toList := by
  rw [(merge_perm q q').mem_iff, mem_append]

theorem mem_push : e ∈ (q.push a).toList ↔ e = a ∨ e ∈ q.toList := by
  rw [(push_perm q a).mem_iff, mem_cons]

/-- Nothing in a heap comes before its first entry. -/
theorem Ordered.not_before {l r : Queue} (h : (node l e r).Ordered) : ∀ x ∈ (node l e r).toList, ¬ before x e := by
  intro x hx
  rcases mem_cons.mp hx with rfl | hx
  · simp [before]
  · exact h.1 x hx

theorem Ordered.merge (h : q.Ordered) (h' : q'.Ordered) : (q.merge q').Ordered := by
  fun_induction Queue.merge q q' with
  | case1 q => exact h'
  | case2 l a r => exact h
  | case3 l a r l' b r' hlt ih =>
    refine ⟨fun x hx => ?_, ih h h'.2.2, h'.2.1⟩
    rw [mem_append, mem_merge] at hx
    rcases hx with (hx | hx) | hx
    · exact not_before_trans (not_before_of_before hlt) (h.not_before x hx)
    · exact h'.1 x (mem_append_right _ hx)
    · exact h'.1 x (mem_append_left _ hx)
  | case4 l a r l' b r' hle ih =>
    refine ⟨fun x hx => ?_, ih h.2.2 h', h.2.1⟩
    rw [mem_append, mem_merge] at hx
    rcases hx with (hx | hx) | hx
    · exact h.1 x (mem_append_right _ hx)
    · exact not_before_trans hle (h'.not_before x hx)
    · exact h.1 x (mem_append_left _ hx)

theorem Ordered.push (h : q.Ordered) (e : Temp × Nat) : (q.push e).Ordered :=
  Ordered.merge ⟨by simp [toList], trivial, trivial⟩ h

theorem Ordered.pop? (h : q.Ordered) (hpop : q.pop? = some (e, q')) :
    q'.Ordered ∧ ∀ x ∈ q.toList, ¬ before x e := by
  cases q with
  | empty => cases hpop
  | node l a r =>
    obtain ⟨rfl, rfl⟩ := Prod.mk.inj (Option.some.inj hpop)
    exact ⟨h.2.1.merge h.2.2, h.not_before⟩

end Queue

namespace Worklist

variable {w : Worklist}

/-- Every temporary that is left has an entry with the number of its neighbours. -/
structure Current (w : Worklist) : Prop where
  nodup : (w.degrees.map Prod.fst).Nodup
  ordered : w.queue.Ordered
  entries : ∀ e ∈ w.left, e ∈ w.queue.toList

theorem lookup_eq_some (hds : (ds.map Prod.fst).Nodup) (he : e ∈ ds) : ds.lookup e.1 = some e.2 := by
  induction ds with
  | nil => cases he
  | cons x ds ih =>
    obtain ⟨hx, hds⟩ := nodup_cons.mp hds
    rcases mem_cons.mp he with rfl | he
    · exact lookup_cons_self
    · have hne : (e.1 == x.1) = false := beq_eq_false_iff_ne.mpr fun heq => hx (heq ▸ mem_map_of_mem he)
      rw [lookup_cons, hne]
      exact ih hds he

theorem Current.not_stale (h : w.Current) (he : e ∈ w.left) : ¬ w.stale e := by
  obtain ⟨hmem, hleft⟩ := mem_left.mp he
  simp [stale, hleft, lookup_eq_some h.nodup hmem]

theorem Current.lower (h : w.Current) (t : Temp) : (w.lower t).Current := by
  obtain ⟨-, hw⟩ | ⟨d, hd, hw⟩ := lower_cases w t
  · rw [hw]
    exact h
  have hfst : (w.degrees.map fun e => if e.1 = t then (t, e.2 - 1) else e).map Prod.fst = w.degrees.map Prod.fst := by
    rw [map_map]
    refine map_congr_left fun e _ => ?_
    by_cases heq : e.1 = t <;> simp [heq]
  refine ⟨?_, ?_, fun e he => ?_⟩
  · rw [hw]
    exact hfst ▸ h.nodup
  · rw [hw]
    exact h.ordered.push _
  · rw [left_lower] at he
    obtain ⟨x, hx, rfl⟩ := mem_map.mp he
    rw [hw, Queue.mem_push]
    by_cases heq : x.1 = t
    · have hdegree := lookup_eq_some h.nodup (mem_left.mp hx).1
      rw [heq, hd, Option.some.injEq] at hdegree
      exact .inl (by simp [heq, hdegree])
    · exact .inr (by simpa [heq] using h.entries x hx)

/-- A temporary that is removed needs no entry. -/
theorem current_remove (hnodup : (w.degrees.map Prod.fst).Nodup) (hordered : w.queue.Ordered)
    (hentries : ∀ x ∈ w.left, x.1 ≠ e.1 → x ∈ w.queue.toList) : (w.remove g e).Current := by
  refine List.foldlRecOn _ _ ⟨hnodup, hordered, fun x hx => ?_⟩ fun w h t _ => h.lower t
  obtain ⟨hmem, hleft⟩ := mem_left.mp hx
  rw [TempSet.mem_insert, not_or] at hleft
  exact hentries x (mem_left.mpr ⟨hmem, hleft.2⟩) hleft.1

theorem stack_remove (g : Interference) (w : Worklist) (e : Temp × Nat) : (w.remove g e).stack = e :: w.stack := by
  refine List.foldlRecOn (motive := fun v : Worklist => v.stack = e :: w.stack) _ _ rfl fun v h t _ => ?_
  obtain ⟨-, hv⟩ | ⟨d, -, hv⟩ := lower_cases v t
  · rw [hv, h]
  · rw [hv, ← h]

theorem left_remove_eq_drop (hg : ∀ t, (g.neighbours t).Nodup) (w : Worklist) (e : Temp × Nat) :
    (w.remove g e).left = g.drop e.1 w.left := by
  rw [left_remove, drop]
  refine map_congr_left fun x _ => ?_
  by_cases hx : x.1 ∈ g.neighbours e.1
  · simp [hx, count_eq_one_of_mem (hg e.1) hx]
  · simp [hx, count_eq_zero_of_not_mem hx]

section
variable {queue : Queue}

theorem Current.mem_of_pop? (h : w.Current) (hpop : w.queue.pop? = some (e, queue)) (ha : a ∈ w.left) :
    a = e ∨ a ∈ queue.toList :=
  mem_cons.mp ((Queue.pop?_perm hpop).mem_iff.mp (h.entries a ha))

theorem Current.skip (h : w.Current) (hpop : w.queue.pop? = some (e, queue)) (hstale : w.stale e) :
    { w with queue }.Current := by
  refine ⟨h.nodup, (h.ordered.pop? hpop).1, fun a ha => (h.mem_of_pop? hpop ha).resolve_left ?_⟩
  rintro rfl
  exact h.not_stale ha hstale

/-- An entry that is not stale comes before all others that are not, so what is taken is what a search
finds. -/
theorem Current.exists_take (hg : ∀ t, (g.neighbours t).Nodup) (registers : Nat) (h : w.Current)
    (hpop : w.queue.pop? = some (e, queue)) (he : e ∈ w.left) : ∃ a rest, w.left = a :: rest ∧
      ({ w with queue }.take g registers e).Current ∧
      ({ w with queue }.take g registers e).left = g.drop (pick registers a rest).1 w.left ∧
      ({ w with queue }.take g registers e).stack = pick registers a rest :: w.stack := by
  obtain ⟨hordered, hfirst⟩ := h.ordered.pop? hpop
  obtain ⟨a, rest, hleft⟩ := exists_cons_of_ne_nil (ne_nil_of_mem he)
  have hleast : least a rest = e := by
    have hmem : least a rest ∈ w.left := hleft ▸ foldl_mem (fun a b => by split <;> simp) a rest
    exact eq_of_not_before (hfirst _ (h.entries _ hmem)) (not_before_least a rest e (hleft ▸ he))
  refine ⟨a, rest, hleft, ?_⟩
  unfold take
  split
  · next hfew =>
    have hpick : pick registers a rest = e := by simp [pick, hleast, hfew]
    rw [hpick]
    refine ⟨current_remove h.nodup hordered fun x hx hne => ?_, left_remove_eq_drop hg .., stack_remove ..⟩
    exact (h.mem_of_pop? hpop hx).resolve_left fun heq => hne (heq ▸ rfl)
  · next hmany =>
    have hmost : { w with queue }.busiest e = pick registers a rest := by
      have hsame : { w with queue }.left = a :: rest := hleft
      simp [busiest, hsame, pick, hleast, hmany]
    simp only [hmost]
    refine ⟨current_remove h.nodup ?_ fun x hx hne => ?_, left_remove_eq_drop hg .., stack_remove ..⟩
    · split
      · exact hordered
      · exact hordered.push e
    · have hentry := h.mem_of_pop? hpop hx
      split
      · next heq => exact hentry.resolve_left fun hx => hne (hx ▸ heq.symm)
      · exact Queue.mem_push.mpr hentry

end

/-- What the worklist puts on the stack is what a search finds, in that order. -/
theorem run_eq (hg : ∀ t, (g.neighbours t).Nodup) (h : w.Current) :
    w.run g registers = (simplify g registers w.left.length w.left).reverse ++ w.stack := by
  fun_induction run g registers w with
  | case1 w hpop =>
    have hnil : w.left = [] := by
      refine eq_nil_iff_forall_not_mem.mpr fun e he => ?_
      have hmem := h.entries e he
      cases hqueue : w.queue with
      | empty => simp [hqueue, Queue.toList] at hmem
      | node l e r => simp [hqueue, Queue.pop?] at hpop
    simp [hnil, simplify]
  | case2 w e queue hpop rest hstale ih => exact ih (h.skip hpop hstale)
  | case3 w e queue hpop rest hstale ih =>
    have he : e ∈ w.left := mem_left_of_not_stale (w := { w with queue }) hstale
    obtain ⟨a, tail, hleft, hcurrent, hrest, hstack⟩ := h.exists_take hg registers hpop he
    have hnodup : (w.left.map Prod.fst).Nodup := h.nodup.sublist (filter_sublist.map _)
    have hlength : (g.drop (pick registers a tail).1 w.left).length = tail.length := by
      rw [length_drop hnodup (hleft ▸ pick_mem), hleft]
      rfl
    rw [ih hcurrent, hrest, hstack, hlength, hleft]
    simp [simplify]

theorem left_ofGraph (g : Interference) : (ofGraph g).left = g.nodes.map fun t => (t, g.degree t) := by
  simp [left, ofGraph]

theorem current_ofGraph (g : Interference) : (ofGraph g).Current where
  nodup := by
    have hfst : (ofGraph g).degrees.map Prod.fst = g.nodes := by simp [ofGraph, Function.comp_def]
    exact hfst ▸ g.adjacent.nodup_keys
  ordered := List.foldlRecOn _ _ trivial fun _ h e _ => h.push e
  entries e he := by
    refine (foldl_iff (P := fun q : Queue => e ∈ q.toList) (Q := (e = ·)) (fun q a => ?_) _ _).mpr (.inr ⟨e, ?_, rfl⟩)
    · rw [Queue.mem_push, or_comm]
    · exact left_ofGraph g ▸ he

end Worklist

/-- The stack has the order of the search, the last first. -/
theorem stack_eq (hg : ∀ t, (g.neighbours t).Nodup) (registers : Nat) :
    g.stack registers = (g.order registers).reverse := by
  rw [stack, Worklist.run_eq hg (Worklist.current_ofGraph g), Worklist.left_ofGraph]
  exact append_nil _

end MmixCompiler.Interference
