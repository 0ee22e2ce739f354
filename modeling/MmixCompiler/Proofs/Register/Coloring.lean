import MmixCompiler.Proofs.Register.Worklist

/-! Colouring without spills gives every node a register below the number of registers, and checking
finds no two neighbours with the same one. -/

namespace MmixCompiler.Interference

open Mmix

variable {g : Interference} {registers : Nat} {a t : Temp} {r : Nat}

theorem simplify_perm {n : Nat} {ds : Degrees} (hn : n = ds.length) (hnodup : (ds.map Prod.fst).Nodup) :
    ((simplify g registers n ds).map Prod.fst).Perm (ds.map Prod.fst) := by
  induction n generalizing ds with
  | zero => rw [List.length_eq_zero_iff.mp hn.symm]; exact .nil
  | succ n ih =>
    obtain ⟨e, rest, rfl⟩ := List.exists_cons_of_length_eq_add_one hn.symm
    have hmem : (pick registers e rest).1 ∈ (e :: rest).map Prod.fst := List.mem_map_of_mem pick_mem
    have hlen : n = (g.drop (pick registers e rest).1 (e :: rest)).length := by
      rw [length_drop hnodup pick_mem, ← hn]
      rfl
    have hdrop := map_fst_drop_of_nodup (g := g) (t := (pick registers e rest).1) hnodup
    have hrest := ih hlen (hdrop ▸ hnodup.erase _)
    exact ((hdrop ▸ hrest).cons _).trans (List.perm_cons_erase hmem).symm

section
variable {ts : List Temp} {colors : Registers}

theorem free?_spec (h : g.free? registers colors t = some r) :
    r < registers ∧ ∀ u ∈ g.neighbours t, colors[u]? ≠ some r := by
  have hmem := List.mem_of_find?_eq_some h
  have hfree := List.find?_some h
  rw [List.mem_range] at hmem
  refine ⟨by omega, fun u hu hr => ?_⟩
  simp only [Bool.not_eq_eq_eq_not, Bool.not_true, List.contains_eq_mem, decide_eq_false_iff_not,
    List.mem_filterMap, not_exists, not_and] at hfree
  exact hfree u hu hr

theorem getElem?_insert_color : (colors.insert t r)[a]? = if a = t then some r else colors[a]? := by
  simp only [Std.TreeMap.getElem?_insert, Std.LawfulEqCmp.compare_eq_iff_eq, @eq_comm _ t]

theorem lt_of_assign (hcolors : ∀ (t : Temp) r, colors[t]? = some r → r < registers) :
    ∀ (t : Temp) r, (g.assign registers ts colors).1[t]? = some r → r < registers := by
  induction ts generalizing colors with
  | nil => exact hcolors
  | cons u us ih =>
    rw [assign]
    split
    · rename_i r hr
      refine ih fun t r' h => ?_
      rw [getElem?_insert_color] at h
      split at h
      · exact Option.some.inj h ▸ (free?_spec hr).1
      · exact hcolors t r' h
    · exact ih hcolors

theorem isSome_assign (h : colors[t]?.isSome ∨ t ∈ ts ∧ t ∉ (g.assign registers ts colors).2) :
    (g.assign registers ts colors).1[t]?.isSome := by
  induction ts generalizing colors with
  | nil => simpa [assign] using h
  | cons u us ih =>
    unfold assign at h ⊢
    split at h
    · refine ih ?_
      rw [getElem?_insert_color]
      grind
    · exact ih (by grind)

theorem assign_subset : (g.assign registers ts colors).2 ⊆ ts := by
  induction ts generalizing colors with
  | nil => exact List.Subset.refl _
  | cons u us ih =>
    unfold assign
    split
    · exact List.Subset.trans ih (List.subset_cons_self _ _)
    · exact List.cons_subset_cons _ ih

end

theorem order_perm (g : Interference) (registers : Nat) : ((g.order registers).map Prod.fst).Perm g.nodes := by
  have hfst : (g.nodes.map fun t => (t, g.degree t)).map Prod.fst = g.nodes := by
    simp [Function.comp_def]
  have hnodup : g.nodes.Nodup := g.adjacent.nodup_keys
  have h : ((g.order registers).map Prod.fst).Perm _ := simplify_perm rfl (hfst.symm ▸ hnodup)
  exact hfst ▸ h

theorem Proper.stack_perm (hg : g.Proper) (registers : Nat) : ((g.stack registers).map Prod.fst).Perm g.nodes := by
  rw [stack_eq hg.nodup, List.map_reverse]
  exact (List.reverse_perm _).trans (order_perm g registers)

theorem mem_spills_color : t ∈ (g.color registers).spills ↔
    t ∈ (g.assign registers ((g.stack registers).map Prod.fst) ∅).2 :=
  TempSet.mem_ofList

theorem colors_eq_of_color {colors : Registers} (h : (g.color registers).registers? = some colors) :
    colors = (g.assign registers ((g.stack registers).map Prod.fst) ∅).1 := by
  simp only [Coloring.registers?, Option.ite_none_right_eq_some, Option.some.injEq] at h
  exact h.2.symm

theorem Proper.spills_color_subset (hg : g.Proper) (ht : t ∈ (g.color registers).spills) : t ∈ g.nodes :=
  (hg.stack_perm registers).mem_iff.mp (assign_subset (mem_spills_color.mp ht))

theorem Proper.color_spec (hg : g.Proper) {colors : Registers}
    (h : (g.color registers).registers? = some colors) (ht : t ∈ g.nodes) : ∃ r < registers, colors[t]? = some r := by
  have hspills : (g.color registers).spills = [] := by
    simp only [Coloring.registers?, Option.ite_none_right_eq_some, List.isEmpty_iff] at h
    exact h.1
  have hmem : t ∈ (g.stack registers).map Prod.fst := (hg.stack_perm registers).mem_iff.mpr ht
  have hnot : t ∉ (g.assign registers ((g.stack registers).map Prod.fst) ∅).2 := by
    rw [← mem_spills_color, hspills]
    exact List.not_mem_nil
  rw [colors_eq_of_color h]
  obtain ⟨r, hr⟩ := Option.isSome_iff_exists.mp (isSome_assign (.inr ⟨hmem, hnot⟩))
  exact ⟨r, lt_of_assign (by simp) t r hr, hr⟩

theorem ne_of_conflict? {colors : Registers} (h : g.conflict? colors = none) (ha : a ∈ g.nodes)
    (ht : t ∈ g.neighbours a) : colors[a]? ≠ colors[t]? := by
  simp only [conflict?, List.findSome?_eq_none_iff, Option.map_eq_none_iff, List.find?_eq_none] at h
  simpa using h a ha t ht

end MmixCompiler.Interference
