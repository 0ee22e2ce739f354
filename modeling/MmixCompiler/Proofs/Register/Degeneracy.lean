import Mathlib.Data.Finset.Card
import MmixCompiler.Proofs.Register.Simplification

/-! What colouring gives. Registers that it finds for all temporaries differ between neighbours, and a temporary that it
leaves out has as many neighbours as there are registers. It leaves none out of a graph that can always be taken apart
further: one in every part of which a temporary has fewer neighbours than there are registers. -/

namespace MmixCompiler.Interference

open Mmix

variable {g : Interference} {registers n : Nat} {t u : Temp}

/-- Registers for the nodes and for nothing else, all below a number and different between neighbours. -/
structure IsColoring (g : Interference) (registers : Nat) (colors : Registers) : Prop where
  defined : ∀ t, t ∈ colors ↔ t ∈ g.nodes
  below : ∀ (t : Temp) r, colors[t]? = some r → r < registers
  apart : ∀ t u, g.interferes t u → colors[t]? ≠ colors[u]?

/-- In every part of the graph a temporary has fewer neighbours than there are registers. -/
def Degenerate (g : Interference) (registers : Nat) : Prop :=
  ∀ H : Finset Temp, H.Nonempty → (∀ t ∈ H, t ∈ g.nodes) →
    ∃ t ∈ H, (H.filter fun u => g.interferes t u).card < registers

theorem interferes_iff : g.interferes t u ↔ u ∈ g.neighbours t := List.contains_iff_mem

theorem degreeAmong_eq_card {H : List Temp} (hH : H.Nodup) :
    g.degreeAmong H t = (H.toFinset.filter fun u => g.interferes t u).card := by
  rw [← List.toFinset_filter, List.toFinset_card_of_nodup (hH.filter _), degreeAmong, List.countP_eq_length_filter]
  exact congrArg List.length (List.filter_congr fun u _ => (List.contains_eq_mem ..).symm)

theorem mem_of_assign {ts : List Temp} {colors : Registers} (h : t ∈ (g.assign registers ts colors).1) :
    t ∈ colors ∨ t ∈ ts := by
  induction ts generalizing colors with
  | nil => exact .inl h
  | cons u us ih =>
    unfold assign at h
    split at h
    · rcases ih h with hmem | hmem
      · rw [Std.TreeMap.mem_insert, Std.LawfulEqCmp.compare_eq_iff_eq] at hmem
        rcases hmem with rfl | hmem
        · exact .inr List.mem_cons_self
        · exact .inl hmem
      · exact .inr (List.mem_cons_of_mem _ hmem)
    · exact (ih h).imp_right (List.mem_cons_of_mem _)

theorem Proper.isColoring (hg : g.Proper) {colors : Registers} (h : (g.color registers).registers? = some colors) :
    g.IsColoring registers colors where
  defined t := by
    refine ⟨fun ht => ?_, fun ht => ?_⟩
    · rw [colors_eq_of_color h] at ht
      exact (hg.stack_perm registers).mem_iff.mp ((mem_of_assign ht).resolve_left (by simp))
    · obtain ⟨r, -, hr⟩ := hg.color_spec h ht
      exact Std.TreeMap.mem_iff_isSome_getElem?.mpr (by simp [hr])
  below t r hr := by
    rw [colors_eq_of_color h] at hr
    exact lt_of_assign (by simp) t r hr
  apart t u htu := by
    rw [interferes_iff] at htu
    exact ne_of_conflict? (hg.conflict?_eq_none h) (hg.nodes (hg.symm htu)) htu

/-- What is left out has as many neighbours as there are registers. -/
theorem le_degree_of_spill (h : t ∈ (g.color registers).spills) : registers ≤ g.degree t := by
  obtain ⟨ts₁, ts₂, -, hle⟩ := crowd_of_assign (mem_spills_color.mp h)
  exact Nat.le_trans hle List.countP_le_length

/-- When a temporary is put on the stack with too many neighbours, all that are left have too many. -/
theorem Proper.exists_crowd (hg : g.Proper) {H : List Temp} (hH : H.Nodup) {e : Temp × Nat}
    (he : e ∈ simplify g registers n (g.counted H)) (hmany : registers ≤ e.2) :
    ∃ H', H' ⊆ H ∧ H'.Nodup ∧ H' ≠ [] ∧ ∀ u ∈ H', registers ≤ g.degreeAmong H' u := by
  induction n generalizing H with
  | zero => simp [simplify] at he
  | succ n ih =>
    rcases eq_or_ne H [] with rfl | hne
    · simp [counted, simplify] at he
    obtain ⟨t, ht, hstep, hcrowd⟩ := hg.simplify_counted registers n hH hne
    rw [hstep] at he
    rcases List.mem_cons.mp he with rfl | he
    · exact ⟨H, List.Subset.refl H, hH, hne, fun u hu => (hcrowd hmany u hu).1⟩
    · obtain ⟨H', hsub, h⟩ := ih (hH.erase t) he
      exact ⟨H', List.Subset.trans hsub List.erase_subset, h⟩

theorem Proper.spills_eq_nil (hg : g.Proper) (h : g.Degenerate registers) : (g.color registers).spills = [] := by
  by_contra hne
  obtain ⟨t, ht⟩ := List.exists_mem_of_ne_nil _ hne
  obtain ⟨d, hd, hmany⟩ := hg.candidate_of_spill ht
  rw [hg.order_eq] at hd
  obtain ⟨H, hsub, hH, hne, hcrowd⟩ := hg.exists_crowd g.adjacent.nodup_keys hd hmany
  obtain ⟨u, hu, hlt⟩ := h H.toFinset (List.toFinset_nonempty_iff H |>.mpr hne) fun u hu =>
    hsub (List.mem_toFinset.mp hu)
  rw [← degreeAmong_eq_card hH] at hlt
  exact absurd (hcrowd u (List.mem_toFinset.mp hu)) (Nat.not_le.mpr hlt)

theorem Proper.exists_coloring (hg : g.Proper) (h : g.Degenerate registers) :
    ∃ colors, (g.color registers).registers? = some colors :=
  ⟨_, by rw [Coloring.registers?, hg.spills_eq_nil h]; rfl⟩

/-- Colouring of the interference graph of code, with any sets of live temporaries and any number of registers. -/
theorem color_spills_only_if_crowded (code : List Instr) {live : Liveness} (hlive : live.Sorted) (fp : Temp)
    (registers : Nat) :
    let g := ofCode code live fp
    (∀ t u, g.interferes t u → g.interferes u t ∧ t ≠ u ∧ t ∈ g.nodes) ∧
    (∀ t, t ∈ g.nodes ↔ t ≠ fp ∧ ((∃ i ∈ code, t ∈ i.uses ∨ t ∈ i.defs) ∨
      ∃ set ∈ live.ins.toList ++ live.outs.toList, t ∈ set)) ∧
    (g.stack registers).reverse = g.order registers ∧ ((g.stack registers).map Prod.fst).Perm g.nodes ∧
    (∀ colors, (g.color registers).registers? = some colors →
      g.IsColoring registers colors ∧ g.conflict? colors = none) ∧
    ((g.color registers).registers? = none → (g.color registers).spills ≠ [] ∧
      (g.color registers).spills.Pairwise (· < ·) ∧
      ∀ t ∈ (g.color registers).spills, t ∈ g.nodes ∧ registers ≤ g.degree t) ∧
    (g.Degenerate registers → ∃ colors, (g.color registers).registers? = some colors) := by
  intro g
  have hg : g.Proper := proper_ofCode hlive
  refine ⟨fun t u htu => ?_, fun t => ?_, ?_, hg.stack_perm registers, fun colors h => ?_, fun h => ?_,
    hg.exists_coloring⟩
  · rw [interferes_iff] at htu ⊢
    exact ⟨hg.symm htu, fun heq => hg.irrefl t (heq ▸ htu), hg.nodes (hg.symm htu)⟩
  · rw [mem_nodes_ofCode_live, Liveness.exists_mem_sets (by simp)]
  · rw [stack_eq hg.nodup, List.reverse_reverse]
  · exact ⟨hg.isColoring h, hg.conflict?_eq_none h⟩
  · refine ⟨fun hnil => ?_, TempSet.sorted_ofList _, fun t ht => ⟨hg.spills_color_subset ht, le_degree_of_spill ht⟩⟩
    rw [Coloring.registers?, hnil] at h
    cases h

/-- Four temporaries around which every two neighbours are live together. -/
def square : Liveness := ⟨#[[1, 2], [2, 3]], #[[3, 4], [1, 4]]⟩

/-- Two registers do for the square, though every temporary has two neighbours, and one does not. -/
theorem square_colored : square.Sorted ∧ (∃ colors, ((ofCode [] square 0).color 2).registers? = some colors ∧
      (ofCode [] square 0).IsColoring 2 colors) ∧
    ((ofCode [] square 0).color 1).spills = [2, 4] ∧ ∀ t ∈ [2, 4], 1 ≤ (ofCode [] square 0).degree t := by
  have hsorted : square.Sorted := by simp [Liveness.Sorted, square, TempSet.Sorted]
  have hsome : ((ofCode [] square 0).color 2).registers?.isSome := by decide +kernel
  have hspills : ((ofCode [] square 0).color 1).spills = [2, 4] := by decide +kernel
  obtain ⟨-, -, -, -, htwo, -⟩ := color_spills_only_if_crowded [] hsorted 0 2
  obtain ⟨-, -, -, -, -, hone, -⟩ := color_spills_only_if_crowded [] hsorted 0 1
  obtain ⟨colors, hcolors⟩ := Option.isSome_iff_exists.mp hsome
  refine ⟨hsorted, ⟨colors, hcolors, (htwo colors hcolors).1⟩, hspills, fun t ht => ?_⟩
  rw [← hspills] at ht
  exact ((hone (by simp [Coloring.registers?, hspills])).2.2 t ht).2

end MmixCompiler.Interference
