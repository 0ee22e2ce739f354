import MmixCompiler.Proofs.Register.Liveness
import MmixCompiler.Register.Interference

/-! The interference graph of code has exactly the edges that liveness asks for: between temporaries
that are live together, and between one that is written and those live after. The frame pointer is
in no edge. -/

namespace MmixCompiler

open Mmix List

theorem foldl_iff {γ δ : Type} {P : γ → Prop} {Q : δ → Prop} {f : γ → δ → γ}
    (hf : ∀ g x, P (f g x) ↔ P g ∨ Q x) (xs : List δ) (g : γ) :
    P (xs.foldl f g) ↔ P g ∨ ∃ x ∈ xs, Q x := by
  induction xs generalizing g with
  | nil => simp
  | cons x xs ih => simp [ih, hf, or_assoc]

namespace Interference

variable {g : Interference} {a b t : Temp} {set others : TempSet}

theorem neighbours_join : (g.join t others).neighbours a =
    if a = t then TempSet.union (g.neighbours t) (others.filter (· ≠ t)) else g.neighbours a := by
  simp only [join, neighbours, Std.TreeMap.getD_insert, Std.LawfulEqCmp.compare_eq_iff_eq, @eq_comm _ t]

theorem mem_neighbours_join : b ∈ (g.join t others).neighbours a ↔ b ∈ g.neighbours a ∨ a = t ∧ b ∈ others ∧ b ≠ t := by
  rw [neighbours_join]
  split
  · simp [TempSet.mem_union, *]
  · simp [*]

theorem mem_nodes_join : a ∈ (g.join t others).nodes ↔ a ∈ g.nodes ∨ a = t := by
  simp only [join, nodes, Std.TreeMap.mem_keys, Std.TreeMap.mem_insert,
    Std.LawfulEqCmp.compare_eq_iff_eq, @eq_comm _ t, or_comm]

theorem mem_neighbours_clique : b ∈ (g.clique set).neighbours a ↔ b ∈ g.neighbours a ∨ a ∈ set ∧ b ∈ set ∧ b ≠ a := by
  have h := foldl_iff (P := fun g => b ∈ neighbours g a) (f := fun g t => g.join t set)
    (fun g t => mem_neighbours_join) set g
  rw [clique, h]
  grind

theorem mem_nodes_clique : a ∈ (g.clique set).nodes ↔ a ∈ g.nodes ∨ a ∈ set := by
  have h := foldl_iff (P := fun g => a ∈ nodes g) (f := fun g t => g.join t set) (fun g t => mem_nodes_join) set g
  rw [clique, h]
  simp

theorem mem_neighbours_star : b ∈ (g.star t others).neighbours a ↔
    b ∈ g.neighbours a ∨ a ≠ b ∧ (a = t ∧ b ∈ others ∨ b = t ∧ a ∈ others) := by
  have h := foldl_iff (P := fun g => b ∈ neighbours g a) (f := fun g u => g.join u [t])
    (fun g u => mem_neighbours_join) others (g.join t others)
  rw [star, h, mem_neighbours_join]
  grind

theorem mem_nodes_star : a ∈ (g.star t others).nodes ↔ a ∈ g.nodes ∨ a = t ∨ a ∈ others := by
  have h := foldl_iff (P := fun g => a ∈ nodes g) (f := fun g u => g.join u [t])
    (fun g u => mem_nodes_join) others (g.join t others)
  rw [star, h, mem_nodes_join]
  grind

end Interference

section
variable {code : List Instr} {live : Liveness} {fp a b t : Temp}

/-- The two are live at the same time, or one is written while the other is live. -/
def Clash (code : List Instr) (live : Liveness) (a b : Temp) : Prop :=
  ∃ index, a ∈ live.liveIn index ∧ b ∈ live.liveIn index ∨
    a ∈ live.liveOut index ∧ b ∈ live.liveOut index ∨
      ∃ i, code[index]? = some i ∧
        (a ∈ i.defs ∧ b ∈ live.liveOut index ∨ b ∈ i.defs ∧ a ∈ live.liveOut index)

theorem Clash.symm (h : Clash code live a b) : Clash code live b a := by
  obtain ⟨index, ⟨ha, hb⟩ | ⟨ha, hb⟩ | ⟨i, hi, h⟩⟩ := h
  · exact ⟨index, .inl ⟨hb, ha⟩⟩
  · exact ⟨index, .inr (.inl ⟨hb, ha⟩)⟩
  · exact ⟨index, .inr (.inr ⟨i, hi, h.symm⟩)⟩

theorem Clash.mentioned (h : Clash code live a b) : (∃ i ∈ code, a ∈ i.uses ∨ a ∈ i.defs) ∨
    ∃ index, a ∈ live.liveIn index ∨ a ∈ live.liveOut index := by
  obtain ⟨index, ⟨ha, -⟩ | ⟨ha, -⟩ | ⟨i, hi, ⟨ha, -⟩ | ⟨-, ha⟩⟩⟩ := h
  · exact .inr ⟨index, .inl ha⟩
  · exact .inr ⟨index, .inr ha⟩
  · exact .inl ⟨i, mem_of_getElem? hi, .inr ha⟩
  · exact .inr ⟨index, .inr ha⟩

/-- Every set of temporaries is in increasing order. -/
def Liveness.Sorted (live : Liveness) : Prop := ∀ set ∈ live.ins.toList ++ live.outs.toList, TempSet.Sorted set

theorem exists_mem_sets {sets : Array TempSet} {P : TempSet → Prop} (hP : ¬ P []) :
    (∃ set ∈ sets.toList, P set) ↔ ∃ index, P (sets.getD index []) := by
  simp only [mem_iff_getElem?, Array.getElem?_toList, Array.getD_eq_getD_getElem?]
  constructor
  · rintro ⟨set, ⟨index, hindex⟩, hset⟩
    exact ⟨index, by simpa [hindex] using hset⟩
  · rintro ⟨index, hset⟩
    rcases hindex : sets[index]? with _ | set
    · exact absurd hset (by simpa [hindex] using hP)
    · exact ⟨set, ⟨index, hindex⟩, by simpa [hindex] using hset⟩

theorem Liveness.exists_mem_sets {P : TempSet → Prop} (hP : ¬ P []) :
    (∃ set ∈ live.ins.toList ++ live.outs.toList, P set) ↔ ∃ index, P (live.liveIn index) ∨ P (live.liveOut index) := by
  simp only [mem_append, or_and_right, exists_or, MmixCompiler.exists_mem_sets hP]
  rfl

theorem Liveness.exists_mem_zip {P : Instr → TempSet → Prop} (hP : ∀ i, ¬ P i []) :
    (∃ q ∈ code.zip live.outs.toList, P q.1 q.2) ↔ ∃ index i, code[index]? = some i ∧ P i (live.liveOut index) := by
  simp only [mem_iff_getElem?, getElem?_zip_eq_some, Array.getElem?_toList, liveOut,
    Array.getD_eq_getD_getElem?]
  constructor
  · rintro ⟨q, ⟨index, hi, hout⟩, hq⟩
    exact ⟨index, q.1, hi, by simpa [hout] using hq⟩
  · rintro ⟨index, i, hi, hq⟩
    rcases hout : live.outs[index]? with _ | out
    · exact absurd hq (by simpa [hout] using hP i)
    · exact ⟨(i, out), ⟨index, hi, hout⟩, by simpa [hout] using hq⟩

namespace Interference

variable {g : Interference}

theorem mem_neighbours_mention (code : List Instr) : b ∈ (code.foldl (fun g i =>
      ((i.uses ++ i.defs).filter (· ≠ fp)).foldl (fun g t => g.join t []) g) g).neighbours a ↔
    b ∈ g.neighbours a := by
  have h := foldl_iff (P := fun g => b ∈ neighbours g a) (Q := fun _ => False)
    (f := fun g (i : Instr) => ((i.uses ++ i.defs).filter (· ≠ fp)).foldl (fun g t => g.join t []) g)
    (fun g i => by
      have h := foldl_iff (P := fun g => b ∈ neighbours g a) (f := fun g t => g.join t [])
        (fun g t => mem_neighbours_join) ((i.uses ++ i.defs).filter (· ≠ fp)) g
      simpa using h) code g
  simpa using h

theorem mem_nodes_mention (code : List Instr) : a ∈ (code.foldl (fun g i =>
      ((i.uses ++ i.defs).filter (· ≠ fp)).foldl (fun g t => g.join t []) g) g).nodes ↔
    a ∈ g.nodes ∨ ∃ i ∈ code, a ∈ (i.uses ++ i.defs).filter (· ≠ fp) := by
  refine foldl_iff (P := fun g => a ∈ nodes g) (fun g i => ?_) code g
  have h := foldl_iff (P := fun g => a ∈ nodes g) (f := fun g t => g.join t [])
    (fun g t => mem_nodes_join) ((i.uses ++ i.defs).filter (· ≠ fp)) g
  rw [h]
  simp

theorem mem_neighbours_iff_clash : b ∈ (ofCode code live fp).neighbours a ↔
    a ≠ b ∧ a ≠ fp ∧ b ≠ fp ∧ Clash code live a b := by
  have hlive := fun g => foldl_iff (P := fun g => b ∈ neighbours g a) (f := fun g set => g.clique (set.filter (· ≠ fp)))
    (fun g set => mem_neighbours_clique) (live.ins.toList ++ live.outs.toList) g
  have hdefs := fun g => foldl_iff (P := fun g => b ∈ neighbours g a) (f := fun g (q : Instr × TempSet) =>
      (q.1.defs.filter (· ≠ fp)).foldl (fun g t => g.star t (q.2.filter (· ≠ fp))) g)
    (fun g q => foldl_iff (P := fun g => b ∈ neighbours g a)
      (f := fun g t => g.star t (q.2.filter (· ≠ fp))) (fun g t => mem_neighbours_star)
      (q.1.defs.filter (· ≠ fp)) g) (code.zip live.outs.toList) g
  have hnil : b ∉ neighbours {} a := by simp [neighbours]
  rw [ofCode, hdefs, hlive, mem_neighbours_mention, Liveness.exists_mem_sets (by simp),
    Liveness.exists_mem_zip (P := fun i out => ∃ t ∈ i.defs.filter (· ≠ fp), a ≠ b ∧
      (a = t ∧ b ∈ out.filter (· ≠ fp) ∨ b = t ∧ a ∈ out.filter (· ≠ fp))) (by simp)]
  clear hlive hdefs
  unfold Clash
  simp only [mem_filter, decide_eq_true_eq]
  constructor
  · rintro ((h0 | ⟨index, ⟨ha, hb, hne⟩ | ⟨ha, hb, hne⟩⟩) | ⟨index, i, hi, t, ht, hne, ⟨rfl, hb⟩ | ⟨rfl, ha⟩⟩)
    · exact absurd h0 hnil
    · exact ⟨hne.symm, ha.2, hb.2, index, .inl ⟨ha.1, hb.1⟩⟩
    · exact ⟨hne.symm, ha.2, hb.2, index, .inr (.inl ⟨ha.1, hb.1⟩)⟩
    · exact ⟨hne, ht.2, hb.2, index, .inr (.inr ⟨i, hi, .inl ⟨ht.1, hb.1⟩⟩)⟩
    · exact ⟨hne, ha.2, ht.2, index, .inr (.inr ⟨i, hi, .inr ⟨ht.1, ha.1⟩⟩)⟩
  · grind

theorem mem_nodes_ofCode_live : a ∈ (ofCode code live fp).nodes ↔ a ≠ fp ∧
    ((∃ i ∈ code, a ∈ i.uses ∨ a ∈ i.defs) ∨ ∃ index, a ∈ live.liveIn index ∨ a ∈ live.liveOut index) := by
  have hlive := fun g => foldl_iff (P := fun g => a ∈ nodes g) (f := fun g set => g.clique (set.filter (· ≠ fp)))
    (fun g set => mem_nodes_clique) (live.ins.toList ++ live.outs.toList) g
  have hdefs := fun g => foldl_iff (P := fun g => a ∈ nodes g) (f := fun g (q : Instr × TempSet) =>
      (q.1.defs.filter (· ≠ fp)).foldl (fun g t => g.star t (q.2.filter (· ≠ fp))) g)
    (fun g q => foldl_iff (P := fun g => a ∈ nodes g)
      (f := fun g t => g.star t (q.2.filter (· ≠ fp))) (fun g t => mem_nodes_star)
      (q.1.defs.filter (· ≠ fp)) g) (code.zip live.outs.toList) g
  have hnil : a ∉ nodes {} := by simp [nodes]
  have hsets : (∃ set ∈ live.ins.toList ++ live.outs.toList, a ∈ set) ↔
      ∃ index, a ∈ live.liveIn index ∨ a ∈ live.liveOut index := Liveness.exists_mem_sets (by simp)
  rw [ofCode, hdefs, hlive, mem_nodes_mention, ← hsets]
  clear hlive hdefs hsets
  simp only [mem_filter, decide_eq_true_eq]
  constructor
  · rintro (((h0 | ⟨i, hi, ha⟩) | ⟨set, hset, ha, hne⟩) | ⟨q, hq, t, ht, rfl | ⟨ha, hne⟩⟩)
    · exact absurd h0 hnil
    · exact ⟨ha.2, .inl ⟨i, hi, mem_append.mp ha.1⟩⟩
    · exact ⟨hne, .inr ⟨set, hset, ha⟩⟩
    · exact ⟨ht.2, .inl ⟨q.1, (of_mem_zip hq).1, .inr ht.1⟩⟩
    · exact ⟨hne, .inr ⟨q.2, mem_append_right _ (of_mem_zip hq).2, ha⟩⟩
  · rintro ⟨hne, ⟨i, hi, ha⟩ | ⟨set, hset, ha⟩⟩
    · exact .inl (.inl (.inr ⟨i, hi, mem_append.mpr ha, hne⟩))
    · exact .inl (.inr ⟨set, hset, ha, hne⟩)

/-- Neighbours are nodes and neighbours of each other, and none is listed twice. -/
structure Proper (g : Interference) : Prop where
  irrefl : ∀ t, t ∉ g.neighbours t
  symm : ∀ {t u}, u ∈ g.neighbours t → t ∈ g.neighbours u
  nodup : ∀ t, (g.neighbours t).Nodup
  nodes : ∀ {t u}, u ∈ g.neighbours t → u ∈ g.nodes

/-- Every list of neighbours is a set. -/
def SortedAll (g : Interference) : Prop := ∀ t, TempSet.Sorted (g.neighbours t)

theorem SortedAll.join (h : g.SortedAll) {others : TempSet} (hs : TempSet.Sorted others) :
    (g.join t others).SortedAll := by
  intro a
  rw [neighbours_join]
  split
  · exact (h t).union (hs.filter _)
  · exact h a

theorem SortedAll.clique (h : g.SortedAll) {set : TempSet} (hs : TempSet.Sorted set) : (g.clique set).SortedAll :=
  List.foldlRecOn set _ h fun _ h _ _ => h.join hs

theorem SortedAll.star (h : g.SortedAll) {others : TempSet} (hs : TempSet.Sorted others) :
    (g.star t others).SortedAll :=
  List.foldlRecOn others _ (h.join hs) fun _ h _ _ => h.join (pairwise_singleton _ t)

theorem sortedAll_ofCode (h : live.Sorted) : (ofCode code live fp).SortedAll := by
  have hrest : ∀ set ∈ live.ins.toList ++ live.outs.toList, TempSet.Sorted (set.filter (· ≠ fp)) :=
    fun set hset => (h set hset).filter _
  refine List.foldlRecOn _ _ ?_ fun g hg q hq => ?_
  · refine List.foldlRecOn _ _ ?_ fun g hg set hset => hg.clique (hrest set hset)
    refine List.foldlRecOn _ _ (fun a => by simp [neighbours, TempSet.Sorted]) fun g hg i _ => ?_
    exact List.foldlRecOn _ _ hg fun g hg t _ => hg.join List.Pairwise.nil
  · refine List.foldlRecOn _ _ hg fun g hg t _ => hg.star ?_
    exact hrest q.2 (mem_append_right _ (of_mem_zip hq).2)

theorem proper_ofCode (h : live.Sorted) : (ofCode code live fp).Proper where
  irrefl t ht := (mem_neighbours_iff_clash.mp ht).1 rfl
  symm hu := by
    obtain ⟨hne, hne', hne'', hclash⟩ := mem_neighbours_iff_clash.mp hu
    exact mem_neighbours_iff_clash.mpr ⟨hne.symm, hne'', hne', hclash.symm⟩
  nodup t := (sortedAll_ofCode h t).nodup
  nodes hu := by
    obtain ⟨-, -, hne, hclash⟩ := mem_neighbours_iff_clash.mp hu
    exact mem_nodes_ofCode_live.mpr ⟨hne, hclash.symm.mentioned⟩

end Interference

namespace Liveness.Solves

theorem sorted (h : live.Solves code) : live.Sorted := by
  intro set hset
  by_contra hnot
  obtain ⟨index, hin | hout⟩ := (Liveness.exists_mem_sets (P := fun set => ¬ TempSet.Sorted set)
    (by simp [TempSet.Sorted])).mp ⟨set, hset, hnot⟩
  · exact hin (h.sortedIn index)
  · exact hout (h.sortedOut index)

theorem exists_use (h : live.Solves code) {index : Nat} (ht : t ∈ live.liveIn index) : ∃ i ∈ code, t ∈ i.uses := by
  refine h.least (fun _ t => ∃ i ∈ code, t ∈ i.uses) ?_ index t ht
  exact fun index i hi => ⟨fun t ht => ⟨i, mem_of_getElem? hi, ht⟩, fun _ _ _ h _ => h⟩

theorem exists_mention (h : live.Solves code) (ha : (∃ i ∈ code, a ∈ i.uses ∨ a ∈ i.defs) ∨
    ∃ index, a ∈ live.liveIn index ∨ a ∈ live.liveOut index) : ∃ i ∈ code, a ∈ i.uses ∨ a ∈ i.defs := by
  have huse : (∃ i ∈ code, a ∈ i.uses) → ∃ i ∈ code, a ∈ i.uses ∨ a ∈ i.defs := Exists.imp fun _ hi => hi.imp_right .inl
  rcases ha with ha | ⟨index, ha | ha⟩
  · exact ha
  · exact huse (h.exists_use ha)
  · obtain ⟨s, -, ha⟩ := (h.mem_out index a).mp ha
    exact huse (h.exists_use ha)

end Liveness.Solves

theorem Clash.mem_left (hsolves : live.Solves code) (h : Clash code live a b) :
    ∃ i ∈ code, a ∈ i.uses ∨ a ∈ i.defs := hsolves.exists_mention h.mentioned

theorem Interference.mem_nodes_ofCode (h : live.Solves code) :
    a ∈ (ofCode code live fp).nodes ↔ a ≠ fp ∧ ∃ i ∈ code, a ∈ i.uses ∨ a ∈ i.defs := by
  rw [mem_nodes_ofCode_live]
  exact and_congr_right fun _ => ⟨h.exists_mention, .inl⟩

end

end MmixCompiler
