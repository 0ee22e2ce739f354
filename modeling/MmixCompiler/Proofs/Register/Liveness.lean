import MmixCompiler.Proofs.Except
import MmixCompiler.Register.Liveness
import Mathlib.Algebra.Order.BigOperators.Group.Finset
import Mathlib.Data.List.Perm.Basic
import Mathlib.Tactic.Ring

/-! The sets that liveness finds are the least ones that its equations allow. Every update keeps the
sets below each solution and below their own next value, so they only grow; there are no more
temporaries in them than the code reads, so the bound on the rounds is never met. -/

namespace MmixCompiler

open Mmix List

variable {out : TempSet} {code : List Instr}

namespace TempSet

variable {s u : TempSet} {t : Temp}

def Sorted (s : TempSet) : Prop := s.Pairwise (· < ·)

theorem Sorted.nodup (h : Sorted s) : s.Nodup := h.imp fun h => Nat.ne_of_lt h

theorem Sorted.insert (h : Sorted s) : Sorted (insert t s) := by
  induction s with
  | nil => exact pairwise_singleton _ _
  | cons v vs ih =>
    obtain ⟨hv, hvs⟩ := pairwise_cons.mp h
    unfold TempSet.insert
    split
    · rename_i htv
      exact pairwise_cons.mpr ⟨by
        rintro a (_ | ⟨_, ha⟩)
        · exact htv
        · exact Nat.lt_trans htv (hv a ha), h⟩
    · split
      · exact h
      · rename_i h₁ h₂
        refine pairwise_cons.mpr ⟨fun a ha => ?_, ih hvs⟩
        rcases mem_insert.mp ha with rfl | ha
        · exact Nat.lt_of_le_of_ne (Nat.le_of_not_lt h₁) (Ne.symm h₂)
        · exact hv a ha

theorem sorted_ofList (ts : List Temp) : Sorted (ofList ts) := by
  induction ts with
  | nil => exact List.Pairwise.nil
  | cons t ts ih => exact ih.insert

theorem Sorted.union (hs : Sorted s) (hu : Sorted u) : Sorted (union s u) := by
  fun_induction TempSet.union s u with
  | case1 => exact hu
  | case2 => exact hs
  | case3 t ts u us h ih =>
    obtain ⟨ht, hts⟩ := pairwise_cons.mp hs
    refine pairwise_cons.mpr ⟨fun a ha => ?_, ih hts hu⟩
    rcases mem_union.mp ha with ha | ha
    · exact ht a ha
    · rcases mem_cons.mp ha with rfl | ha
      · exact h
      · exact Nat.lt_trans h ((pairwise_cons.mp hu).1 a ha)
  | case4 t ts us h ih =>
    obtain ⟨ht, hts⟩ := pairwise_cons.mp hs
    obtain ⟨hu, hus⟩ := pairwise_cons.mp hu
    refine pairwise_cons.mpr ⟨fun a ha => ?_, ih hts hus⟩
    rcases mem_union.mp ha with ha | ha
    · exact ht a ha
    · exact hu a ha
  | case5 t ts u us h h' ih =>
    have hlt : u < t := Nat.lt_of_le_of_ne (Nat.le_of_not_lt h) (Ne.symm h')
    obtain ⟨hu, hus⟩ := pairwise_cons.mp hu
    refine pairwise_cons.mpr ⟨fun a ha => ?_, ih hs hus⟩
    rcases mem_union.mp ha with ha | ha
    · rcases mem_cons.mp ha with rfl | ha
      · exact hlt
      · exact Nat.lt_trans hlt ((pairwise_cons.mp hs).1 a ha)
    · exact hu a ha

theorem Sorted.length_le (hs : Sorted s) {l : List Temp} (h : s ⊆ l) : s.length ≤ l.length :=
  (subperm_of_subset hs.nodup h).length_le

theorem Sorted.eq_of_subset (hs : Sorted s) (hu : Sorted u) (h : s ⊆ u) (hlen : u.length ≤ s.length) : s = u := by
  have hperm := (subperm_of_subset hs.nodup h).perm_of_length_le hlen
  have hanti : ∀ a b : Temp, a ∈ s → b ∈ u → a < b → b < a → a = b :=
    fun a b _ _ hab hba => absurd hab (Nat.lt_asymm hba)
  exact hperm.eq_of_pairwise hanti hs hu

end TempSet

namespace Liveness

/-- What is live after an instruction, from what is live before its successors. -/
def flowOut (live : Liveness) (next : List Nat) : TempSet :=
  next.foldl (fun set s => TempSet.union set (live.liveIn s)) []

/-- What is live before an instruction, from what is live after it. -/
def flowIn (i : Instr) (out : TempSet) : TempSet :=
  TempSet.union (.ofList i.uses) (out.filter fun t => t ∉ i.defs)

variable {live live' : Liveness} {i : Instr} {next : List Nat} {index : Nat} {t : Temp}

theorem mem_flowOut : t ∈ live.flowOut next ↔ ∃ s ∈ next, t ∈ live.liveIn s := by
  suffices h : ∀ acc : TempSet, t ∈ next.foldl (fun set s => TempSet.union set (live.liveIn s)) acc ↔
        t ∈ acc ∨ ∃ s ∈ next, t ∈ live.liveIn s by
    simpa [flowOut] using h []
  induction next with
  | nil => simp
  | cons s next ih => intro acc; simp [ih, TempSet.mem_union, or_assoc]

theorem mem_flowIn : t ∈ flowIn i out ↔ t ∈ i.uses ∨ t ∈ out ∧ t ∉ i.defs := by
  simp [flowIn, TempSet.mem_union, TempSet.mem_ofList]

theorem sorted_flowOut (h : ∀ j, TempSet.Sorted (live.liveIn j)) : TempSet.Sorted (live.flowOut next) := by
  suffices h : ∀ acc : TempSet, TempSet.Sorted acc →
      TempSet.Sorted (next.foldl (fun set s => TempSet.union set (live.liveIn s)) acc) from
    h [] List.Pairwise.nil
  induction next with
  | nil => exact fun acc hacc => hacc
  | cons s next ih => exact fun acc hacc => ih _ (hacc.union (h s))

theorem sorted_flowIn (h : TempSet.Sorted out) : TempSet.Sorted (flowIn i out) :=
  (TempSet.sorted_ofList _).union (List.Pairwise.filter _ h)

/-- Every set of the one lies in that of the other. -/
structure Below (live live' : Liveness) : Prop where
  ins : ∀ j, live.liveIn j ⊆ live'.liveIn j
  outs : ∀ j, live.liveOut j ⊆ live'.liveOut j

theorem Below.refl (live : Liveness) : Below live live := ⟨fun _ => List.Subset.refl _, fun _ => List.Subset.refl _⟩

theorem Below.trans {live'' : Liveness} (h : Below live live') (h' : Below live' live'') : Below live live'' :=
  ⟨fun j => List.Subset.trans (h.ins j) (h'.ins j), fun j => List.Subset.trans (h.outs j) (h'.outs j)⟩

theorem Below.flowOut (h : Below live live') : live.flowOut next ⊆ live'.flowOut next := by
  intro t ht
  obtain ⟨s, hs, ht⟩ := mem_flowOut.mp ht
  exact mem_flowOut.mpr ⟨s, hs, h.ins s ht⟩

theorem flowIn_subset {out' : TempSet} (h : out ⊆ out') : flowIn i out ⊆ flowIn i out' := by
  intro t ht
  rw [mem_flowIn] at ht ⊢
  exact ht.imp_right fun ht => ⟨h ht.1, ht.2⟩

/-- A set for each place that holds what the instruction there reads, and what the sets of its
successors hold and it does not write. -/
def Closed (code : List (Instr × List Nat)) (live : Nat → Temp → Prop) : Prop :=
  ∀ index i next, code[index]? = some (i, next) →
    (∀ t ∈ i.uses, live index t) ∧
      ∀ s ∈ next, ∀ t, live s t → t ∉ i.defs → live index t

/-- What every round keeps: there is a set for each instruction, none is more than its own next
value, and none is more than any closed family of sets has there. -/
structure Rising (code : List (Instr × List Nat)) (live : Liveness) : Prop where
  insSize : live.ins.size = code.length
  outsSize : live.outs.size = code.length
  sortedIn : ∀ j, TempSet.Sorted (live.liveIn j)
  sortedOut : ∀ j, TempSet.Sorted (live.liveOut j)
  outs : ∀ index i next, code[index]? = some (i, next) →
    live.liveOut index ⊆ live.flowOut next
  ins : ∀ index i next, code[index]? = some (i, next) →
    live.liveIn index ⊆ flowIn i (live.flowOut next)
  least : ∀ closed, Closed code closed → ∀ j, ∀ t ∈ live.liveIn j, closed j t

variable {code : List (Instr × List Nat)}

@[simp] theorem liveIn_empty (size j : Nat) : (empty size).liveIn j = [] := by
  simp [empty, liveIn, Array.getD]

@[simp] theorem liveOut_empty (size j : Nat) : (empty size).liveOut j = [] := by
  simp [empty, liveOut, Array.getD]

theorem rising_empty (code : List (Instr × List Nat)) : Rising code (empty code.length) where
  insSize := by simp [empty]
  outsSize := by simp [empty]
  sortedIn := by simp [TempSet.Sorted]
  sortedOut := by simp [TempSet.Sorted]
  outs := by simp
  ins := by simp
  least := by simp

theorem liveIn_update (h : index < live.ins.size) (j : Nat) : (live.update index i next).liveIn j =
      if j = index then flowIn i (live.flowOut next) else live.liveIn j := by
  unfold liveIn update flowIn flowOut
  simp only [Array.getD_eq_getD_getElem?, Array.getElem?_setIfInBounds]
  by_cases hj : index = j
  · subst hj; simp [h, liveIn]
  · simp [hj, Ne.symm hj]

theorem liveOut_update (h : index < live.outs.size) (j : Nat) : (live.update index i next).liveOut j =
      if j = index then live.flowOut next else live.liveOut j := by
  unfold liveOut update flowOut
  simp only [Array.getD_eq_getD_getElem?, Array.getElem?_setIfInBounds]
  by_cases hj : index = j
  · subst hj; simp [h]
  · simp [hj, Ne.symm hj]

theorem Rising.liveIn_eq_nil (h : Rising code live) (hj : code.length ≤ index) : live.liveIn index = [] := by
  simp [liveIn, Array.getD, h.insSize, Nat.not_lt.mpr hj]

theorem Rising.liveOut_eq_nil (h : Rising code live) (hj : code.length ≤ index) : live.liveOut index = [] := by
  simp [liveOut, Array.getD, h.outsSize, Nat.not_lt.mpr hj]

theorem Rising.below_update (h : Rising code live) (hi : code[index]? = some (i, next)) :
    Below live (live.update index i next) := by
  obtain ⟨hlt, -⟩ := List.getElem?_eq_some_iff.mp hi
  constructor <;> intro j
  · rw [liveIn_update (h.insSize ▸ hlt)]
    split
    · rename_i hj; subst hj; exact h.ins _ _ _ hi
    · exact List.Subset.refl _
  · rw [liveOut_update (h.outsSize ▸ hlt)]
    split
    · rename_i hj; subst hj; exact h.outs _ _ _ hi
    · exact List.Subset.refl _

theorem Rising.update (h : Rising code live) (hi : code[index]? = some (i, next)) :
    Rising code (live.update index i next) := by
  obtain ⟨hlt, -⟩ := List.getElem?_eq_some_iff.mp hi
  have hbelow := h.below_update hi
  have hin : ∀ j, (live.update index i next).liveIn j = _ := liveIn_update (h.insSize ▸ hlt)
  have hout : ∀ j, (live.update index i next).liveOut j = _ := liveOut_update (h.outsSize ▸ hlt)
  refine ⟨by simp [Liveness.update, h.insSize], by simp [Liveness.update, h.outsSize],
    fun j => ?_, fun j => ?_, fun j i' next' hj => ?_, fun j i' next' hj => ?_,
    fun closed hclosed j t ht => ?_⟩
  · rw [hin]; split
    · exact sorted_flowIn (sorted_flowOut h.sortedIn)
    · exact h.sortedIn j
  · rw [hout]; split
    · exact sorted_flowOut h.sortedIn
    · exact h.sortedOut j
  · rw [hout]; split
    · rename_i hjx; subst hjx
      rw [hi] at hj; cases hj
      exact hbelow.flowOut
    · exact List.Subset.trans (h.outs j i' next' hj) hbelow.flowOut
  · rw [hin]; split
    · rename_i hjx; subst hjx
      rw [hi] at hj; cases hj
      exact flowIn_subset hbelow.flowOut
    · exact List.Subset.trans (h.ins j i' next' hj) (flowIn_subset hbelow.flowOut)
  · rw [hin] at ht; split at ht
    · rename_i hjx; subst hjx
      obtain ⟨huses, hnext⟩ := hclosed _ _ _ hi
      rcases mem_flowIn.mp ht with ht | ⟨ht, hdef⟩
      · exact huses t ht
      · obtain ⟨s, hs, ht⟩ := mem_flowOut.mp ht
        exact hnext s hs t (h.least closed hclosed s t ht) hdef
    · exact h.least closed hclosed j t ht

theorem mem_zipIdx {q : (Instr × List Nat) × Nat} (h : q ∈ code.zipIdx) : code[q.2]? = some q.1 := by
  simpa using mem_zipIdx_iff_getElem?.mp h

theorem Rising.foldr (h : Rising code live) {part : List ((Instr × List Nat) × Nat)} (hpart : part ⊆ code.zipIdx) :
    Rising code (sweep part live) ∧ Below live (sweep part live) := by
  induction part with
  | nil => exact ⟨h, Below.refl live⟩
  | cons q part ih =>
    obtain ⟨hq, hpart⟩ := cons_subset.mp hpart
    obtain ⟨hrising, hbelow⟩ := ih hpart
    exact ⟨hrising.update (mem_zipIdx hq), hbelow.trans (hrising.below_update (mem_zipIdx hq))⟩

/-- The two equations at one place. -/
def Fixed (live : Liveness) (index : Nat) (i : Instr) (next : List Nat) : Prop :=
  (∀ t, t ∈ live.liveOut index ↔ t ∈ live.flowOut next) ∧
    ∀ t, t ∈ live.liveIn index ↔ t ∈ flowIn i (live.flowOut next)

/-- A round that adds nothing has found the equations to hold wherever it went. -/
theorem Rising.fixed (h : Rising code live) {part : List ((Instr × List Nat) × Nat)}
    (hpart : part ⊆ code.zipIdx) (hback : Below (sweep part live) live) :
    ∀ q ∈ part, Fixed live q.2 q.1.1 q.1.2 := by
  induction part with
  | nil => simp
  | cons q part ih =>
    obtain ⟨hq, hpart⟩ := cons_subset.mp hpart
    obtain ⟨hrising, hbelow⟩ := h.foldr hpart
    have hcode := mem_zipIdx hq
    obtain ⟨hlt, -⟩ := List.getElem?_eq_some_iff.mp hcode
    have hback' : Below (sweep part live) live := (hrising.below_update hcode).trans hback
    rintro q' (_ | ⟨_, hq'⟩)
    · -- the value written at this place is above the next value of `live` and below `live`
      have hin := hback.ins q.2
      have hout := hback.outs q.2
      change ((sweep part live).update q.2 q.1.1 q.1.2).liveIn q.2 ⊆ _ at hin
      change ((sweep part live).update q.2 q.1.1 q.1.2).liveOut q.2 ⊆ _ at hout
      rw [liveIn_update (hrising.insSize ▸ hlt), if_pos rfl] at hin
      rw [liveOut_update (hrising.outsSize ▸ hlt), if_pos rfl] at hout
      exact ⟨fun t => ⟨fun ht => h.outs _ _ _ hcode ht, fun ht => hout (hbelow.flowOut ht)⟩,
        fun t => ⟨fun ht => h.ins _ _ _ hcode ht, fun ht => hin (flowIn_subset hbelow.flowOut ht)⟩⟩
    · exact ih hpart hback' q' hq'

/-- How many temporaries the sets hold together. -/
def weight (size : Nat) (live : Liveness) : Nat :=
  ∑ j ∈ Finset.range size, ((live.liveIn j).length + (live.liveOut j).length)

theorem Rising.eq_of_forall (h : Rising code live) (h' : Rising code live')
    (hin : ∀ j < code.length, live.liveIn j = live'.liveIn j)
    (hout : ∀ j < code.length, live.liveOut j = live'.liveOut j) : live = live' := by
  have hins : live.ins = live'.ins := by
    refine Array.ext (h.insSize.trans h'.insSize.symm) fun j hj hj' => ?_
    have := hin j (h.insSize ▸ hj)
    simpa [liveIn, Array.getD, hj, hj'] using this
  have houts : live.outs = live'.outs := by
    refine Array.ext (h.outsSize.trans h'.outsSize.symm) fun j hj hj' => ?_
    have := hout j (h.outsSize ▸ hj)
    simpa [liveOut, Array.getD, hj, hj'] using this
  cases live; cases live'
  simp_all

theorem length_liveIn (live : Liveness) (j : Nat) : (live.liveIn j).length = live.sizes.1.getD j 0 := by
  rw [liveIn, sizes, Array.getD_eq_getD_getElem?, ← Array.getElem?_toList, getD_eq_getElem?_getD, getElem?_map]
  cases live.ins.toList[j]? <;> rfl

theorem length_liveOut (live : Liveness) (j : Nat) : (live.liveOut j).length = live.sizes.2.getD j 0 := by
  rw [liveOut, sizes, Array.getD_eq_getD_getElem?, ← Array.getElem?_toList, getD_eq_getElem?_getD, getElem?_map]
  cases live.outs.toList[j]? <;> rfl

section

variable (h : Rising code live)

include h

theorem Rising.eq_of_sizes (h' : Rising code live') (hb : Below live live')
    (hsizes : live'.sizes = live.sizes) : live' = live := by
  refine (h.eq_of_forall h' (fun j _ => ?_) fun j _ => ?_).symm
  · refine (h.sortedIn j).eq_of_subset (h'.sortedIn j) (hb.ins j) ?_
    rw [length_liveIn, length_liveIn, hsizes]
  · refine (h.sortedOut j).eq_of_subset (h'.sortedOut j) (hb.outs j) ?_
    rw [length_liveOut, length_liveOut, hsizes]

theorem Rising.weight_lt (h' : Rising code live') (hb : Below live live')
    (hne : live ≠ live') : weight code.length live < weight code.length live' := by
  have hle : ∀ j, (live.liveIn j).length ≤ (live'.liveIn j).length ∧
      (live.liveOut j).length ≤ (live'.liveOut j).length := fun j =>
    ⟨(h.sortedIn j).length_le (hb.ins j), (h.sortedOut j).length_le (hb.outs j)⟩
  refine Finset.sum_lt_sum (fun j _ => Nat.add_le_add (hle j).1 (hle j).2) ?_
  by_contra hnot
  simp only [Finset.mem_range, not_exists, not_and, Nat.not_lt] at hnot
  refine hne (h.eq_of_forall h' (fun j hj => ?_) fun j hj => ?_)
  · have := hnot j hj; have := hle j
    exact (h.sortedIn j).eq_of_subset (h'.sortedIn j) (hb.ins j) (by omega)
  · have := hnot j hj; have := hle j
    exact (h.sortedOut j).eq_of_subset (h'.sortedOut j) (hb.outs j) (by omega)

/-- Only what some instruction reads is ever live. -/
theorem Rising.subset_uses (j : Nat) : live.liveIn j ⊆ code.flatMap fun q => q.1.uses := by
  refine fun t ht => h.least (fun _ t => t ∈ code.flatMap fun q => q.1.uses) ?_ j t ht
  refine fun index i next hi => ⟨fun t ht => ?_, fun _ _ _ ht _ => ht⟩
  exact mem_flatMap.mpr ⟨(i, next), mem_of_getElem? hi, ht⟩

theorem Rising.weight_le :
    weight code.length live ≤ 2 * code.length * (code.flatMap fun q => q.1.uses).length := by
  have hin := h.subset_uses
  revert hin
  generalize code.flatMap (fun q => q.1.uses) = uses
  intro hin
  have hout : ∀ j < code.length, live.liveOut j ⊆ uses := fun j hj t ht => by
    obtain ⟨s, -, ht⟩ := mem_flowOut.mp (h.outs j code[j].1 code[j].2 (getElem?_eq_getElem hj) ht)
    exact hin s ht
  have hterm : ∀ j ∈ Finset.range code.length,
      (live.liveIn j).length + (live.liveOut j).length ≤ 2 * uses.length := fun j hj => by
    have := (h.sortedIn j).length_le (hin j)
    have := (h.sortedOut j).length_le (hout j (Finset.mem_range.mp hj))
    omega
  calc weight code.length live ≤ ∑ _j ∈ Finset.range code.length, 2 * uses.length :=
        Finset.sum_le_sum hterm
    _ = 2 * code.length * uses.length := by
        rw [Finset.sum_const, Finset.card_range, Nat.nsmul_eq_mul]; ring

theorem Rising.sweeps (n : Nat) : Rising code ((sweep code.zipIdx)^[n] live) := by
  induction n generalizing live with
  | zero => exact h
  | succ n ih => exact ih (h.foldr (List.Subset.refl code.zipIdx)).1

end

/-- After `n` rounds, the next one is the first that leaves every set as large as it was. -/
structure Settles (code : List ((Instr × List Nat) × Nat)) (live : Liveness) (n : Nat) : Prop where
  before : ∀ m < n, ((sweep code)^[m + 1] live).sizes ≠ ((sweep code)^[m] live).sizes
  after : ((sweep code)^[n + 1] live).sizes = ((sweep code)^[n] live).sizes

/-- There is such a round, since every other one makes a set larger. -/
theorem Rising.exists_settles (h : Rising code live) {bound : Nat}
    (hbound : 2 * code.length * (code.flatMap fun q => q.1.uses).length <
      weight code.length live + bound) : ∃ n < bound, Settles code.zipIdx live n := by
  induction bound generalizing live with
  | zero => exact absurd h.weight_le (by omega)
  | succ bound ih =>
    obtain ⟨hrising, hbelow⟩ := h.foldr (List.Subset.refl code.zipIdx)
    by_cases hsizes : (sweep code.zipIdx live).sizes = live.sizes
    · exact ⟨0, Nat.succ_pos bound, by simp, hsizes⟩
    · have := h.weight_lt hrising hbelow fun heq => hsizes (congrArg sizes heq.symm)
      obtain ⟨n, hn, hsettles⟩ := ih hrising (by omega)
      refine ⟨n + 1, Nat.succ_lt_succ hn, fun m hm => ?_, hsettles.after⟩
      cases m with
      | zero => exact hsizes
      | succ m => exact hsettles.before m (Nat.lt_of_succ_lt_succ hm)

/-- The rounds end there, whatever larger number of them is allowed. -/
theorem Settles.iterate_eq {code : List ((Instr × List Nat) × Nat)} {n bound : Nat} (h : Settles code live n)
    (hn : n < bound) (rounds : Nat) :
    Liveness.iterate code bound rounds live = ((sweep code)^[n + 1] live, rounds + n + 1) := by
  induction n generalizing live bound rounds with
  | zero =>
    obtain ⟨bound, rfl⟩ := Nat.exists_eq_succ_of_ne_zero (Nat.ne_of_gt hn)
    exact if_pos h.after
  | succ n ih =>
    obtain ⟨bound, rfl⟩ := Nat.exists_eq_succ_of_ne_zero (Nat.ne_zero_of_lt hn)
    have hrest : Settles code (sweep code live) n := ⟨fun m hm => h.before (m + 1) (Nat.succ_lt_succ hm), h.after⟩
    have hgrows : (sweep code live).sizes ≠ live.sizes := h.before 0 (Nat.succ_pos n)
    rw [Liveness.iterate, if_neg hgrows, ih hrest (Nat.lt_of_succ_lt_succ hn),
      ← Function.iterate_succ_apply, Nat.add_right_comm rounds 1 n]
    rfl

/-- The round that leaves all sizes leaves the sets, and so would any further one. -/
theorem Rising.sweep_eq (h : Rising code live) {n : Nat} (hn : Settles code.zipIdx live n) :
    sweep code.zipIdx ((sweep code.zipIdx)^[n + 1] live) = (sweep code.zipIdx)^[n + 1] live := by
  have hrising := h.sweeps n
  obtain ⟨hnext, hbelow⟩ := hrising.foldr (List.Subset.refl code.zipIdx)
  have hafter := hn.after
  rw [Function.iterate_succ_apply'] at hafter ⊢
  rw [hrising.eq_of_sizes hnext hbelow hafter, hrising.eq_of_sizes hnext hbelow hafter]

end Liveness

/-- One place of the code may follow another: the next does, and so does the one that a jump leads
to. -/
def Follows (code : List Instr) (index s : Nat) : Prop :=
  ∃ i, code[index]? = some i ∧
    (s = index + 1 ∧ index + 1 < code.length ∨ ∃ l ∈ i.jumps, labelIndex? code l = some s)

/-- No label stands at two places and every jump leads to one. -/
structure Labelled (code : List Instr) : Prop where
  nodup : (code.filterMap Instr.label?).Nodup
  defined : ∀ i ∈ code, ∀ l ∈ i.jumps, ∃ s, labelIndex? code l = some s

theorem duplicate?_eq_none {seen ls : List Label} : duplicate? seen ls = none ↔ ls.Nodup ∧ ∀ l ∈ ls, l ∉ seen := by
  induction ls generalizing seen with
  | nil => simp [duplicate?]
  | cons l ls ih =>
    unfold duplicate?
    split
    · simp_all
    · rw [ih]; simp only [nodup_cons, mem_cons]; grind

theorem Mmix.Instr.mem_of_successors {index : Nat} {i : Instr} {next : List Nat}
    (hi : code[index]? = some i) (h : i.successors code index = .ok next) :
    (∀ l ∈ i.jumps, ∃ s, labelIndex? code l = some s) ∧ ∀ s, s ∈ next ↔ Follows code index s := by
  obtain ⟨targets, htargets, h⟩ := bind_eq_ok.mp h
  have hrel : List.Forall₂ (fun l s => labelIndex? code l = some s) i.jumps targets := by
    refine (mapM_eq_ok.mp htargets).imp fun l s h => ?_
    split at h
    · rename_i htarget; rw [htarget, ← Except.ok.inj h]
    · cases h
  have hmem : ∀ s, s ∈ targets ↔ ∃ l ∈ i.jumps, labelIndex? code l = some s := by
    refine fun s => ⟨exists_left_of_forall₂ hrel, ?_⟩
    rintro ⟨l, hl, hs⟩
    obtain ⟨s', hs', h⟩ := exists_right_of_forall₂ hrel hl
    rw [hs, Option.some.injEq] at h
    exact h ▸ hs'
  refine ⟨fun l hl => ?_, fun s => ?_⟩
  · obtain ⟨s, -, hs⟩ := exists_right_of_forall₂ hrel hl
    exact ⟨s, hs⟩
  · rw [← Except.ok.inj h]
    unfold Follows
    split <;> simp_all

theorem Labelled.exists_successors (h : Labelled code) : ∃ nexts, successors code = .ok nexts := by
  unfold successors
  rw [duplicate?_eq_none.mpr ⟨h.nodup, by simp⟩]
  apply exists_mapM_eq_ok
  rintro ⟨i, index⟩ hi
  have hi : i ∈ code := mem_of_getElem? (by simpa using mem_zipIdx_iff_getElem?.mp hi)
  refine exists_bind_eq_ok (exists_mapM_eq_ok fun l hl => ?_) fun targets => ⟨_, rfl⟩
  obtain ⟨s, hs⟩ := h.defined i hi l hl
  exact ⟨s, by rw [hs]; rfl⟩

theorem labelled_of_successors {nexts : List (List Nat)} (h : successors code = .ok nexts) :
    Labelled code ∧ nexts.length = code.length ∧
      ∀ index next, nexts[index]? = some next → ∀ s, s ∈ next ↔ Follows code index s := by
  unfold successors at h
  split at h
  · cases h
  rename_i hdup
  have hrel := mapM_eq_ok.mp h
  have hlen : nexts.length = code.length := by simpa using hrel.length_eq.symm
  have hat : ∀ index next, nexts[index]? = some next → ∃ i : Instr, code[index]? = some i ∧
      i.successors code index = .ok next := fun index next hnext => by
    obtain ⟨hlt, -⟩ := List.getElem?_eq_some_iff.mp hnext
    have hi : code[index]? = some code[index] := getElem?_eq_getElem (by omega)
    have hpair : code.zipIdx[index]? = some (code[index], index) := by simp [hi]
    exact ⟨_, hi, rel_getElem?_of_forall₂ hrel hpair hnext⟩
  refine ⟨⟨(duplicate?_eq_none.mp hdup).1, fun i hi => ?_⟩, hlen, fun index next hnext => ?_⟩
  · obtain ⟨index, hlt, hi⟩ := mem_iff_getElem.mp hi
    obtain ⟨i', hi', hsucc⟩ := hat index nexts[index] (getElem?_eq_getElem (by omega))
    rw [getElem?_eq_getElem hlt, hi, Option.some.injEq] at hi'
    subst hi'
    exact (Instr.mem_of_successors (by rw [← hi]; exact getElem?_eq_getElem hlt) hsucc).1
  · obtain ⟨i, hi, hsucc⟩ := hat index next hnext
    exact (Instr.mem_of_successors hi hsucc).2

/-- Sets of live temporaries that satisfy the equations of the code. -/
structure Liveness.Solves (code : List Instr) (live : Liveness) : Prop where
  insSize : live.ins.size = code.length
  outsSize : live.outs.size = code.length
  sortedIn : ∀ index, TempSet.Sorted (live.liveIn index)
  sortedOut : ∀ index, TempSet.Sorted (live.liveOut index)
  mem_out : ∀ index t, t ∈ live.liveOut index ↔ ∃ s, Follows code index s ∧ t ∈ live.liveIn s
  mem_in : ∀ index t, t ∈ live.liveIn index ↔
    ∃ i, code[index]? = some i ∧ (t ∈ i.uses ∨ t ∈ live.liveOut index ∧ t ∉ i.defs)
  least : ∀ closed : Nat → Temp → Prop,
    (∀ index i, code[index]? = some i → (∀ t ∈ i.uses, closed index t) ∧
      ∀ s, Follows code index s → ∀ t, closed s t → t ∉ i.defs → closed index t) →
    ∀ index, ∀ t ∈ live.liveIn index, closed index t

/-- The rounds of finding liveness go on until the first one that leaves all sizes; the bound on their number is
never met. -/
theorem liveness_settles {live : Liveness} {rounds : Nat}
    (h : liveness code = .ok (live, rounds)) : ∃ nexts n, successors code = .ok nexts ∧
      Liveness.Settles (code.zip nexts).zipIdx (.empty code.length) n ∧
      live = (Liveness.sweep (code.zip nexts).zipIdx)^[n + 1] (.empty code.length) ∧ rounds = n + 1 := by
  obtain ⟨nexts, hnexts, h⟩ := bind_eq_ok.mp h
  obtain ⟨-, hlen, -⟩ := labelled_of_successors hnexts
  have hfst : (code.zip nexts).map Prod.fst = code := map_fst_zip (by omega)
  have hsize : (code.zip nexts).length = code.length := by simp [hlen]
  have huses : ((code.zip nexts).flatMap fun q => q.1.uses) = code.flatMap Instr.uses := by
    conv_rhs => rw [← hfst, flatMap_map]
  have hbound : 2 * (code.zip nexts).length * ((code.zip nexts).flatMap fun q => q.1.uses).length <
      Liveness.weight (code.zip nexts).length (.empty (code.zip nexts).length) + Liveness.bound code := by
    rw [huses, hsize]
    unfold Liveness.bound
    omega
  obtain ⟨n, hn, hsettles⟩ := (Liveness.rising_empty (code.zip nexts)).exists_settles hbound
  rw [hsize] at hsettles
  obtain ⟨rfl, rfl⟩ := Prod.mk.inj ((hsettles.iterate_eq hn 0).symm.trans (Except.ok.inj h))
  exact ⟨nexts, n, hnexts, hsettles, rfl, by omega⟩

theorem liveness_solves {live : Liveness} {rounds : Nat}
    (h : liveness code = .ok (live, rounds)) : Labelled code ∧ live.Solves code := by
  obtain ⟨nexts, n, hnexts, hsettles, hlive, -⟩ := liveness_settles h
  obtain ⟨hlabelled, hlen, hfollows⟩ := labelled_of_successors hnexts
  refine ⟨hlabelled, ?_⟩
  have hsize : (code.zip nexts).length = code.length := by simp [hlen]
  have hflow : ∀ index i, code[index]? = some i → ∃ next,
      (code.zip nexts)[index]? = some (i, next) ∧ ∀ s, s ∈ next ↔ Follows code index s :=
    fun index i hi => by
      obtain ⟨hlt, -⟩ := List.getElem?_eq_some_iff.mp hi
      have hnext : nexts[index]? = some nexts[index] := getElem?_eq_getElem (by omega)
      exact ⟨_, getElem?_zip_eq_some.mpr ⟨hi, hnext⟩, hfollows _ _ hnext⟩
  have hrising := (Liveness.rising_empty (code.zip nexts)).sweeps (n + 1)
  have hsweep := (Liveness.rising_empty (code.zip nexts)).sweep_eq (hsize.symm ▸ hsettles)
  rw [hsize, ← hlive] at hrising hsweep
  have hfixed := hrising.fixed (List.Subset.refl _) (hsweep.symm ▸ Liveness.Below.refl live)
  have hat : ∀ index i, code[index]? = some i → ∃ next, live.Fixed index i next ∧
      ∀ s, s ∈ next ↔ Follows code index s := fun index i hi => by
    obtain ⟨next, hi, hnext⟩ := hflow index i hi
    exact ⟨next, hfixed ((i, next), index) (mem_zipIdx_iff_getElem?.mpr (by simpa using hi)),
      hnext⟩
  refine ⟨hsize ▸ hrising.insSize, hsize ▸ hrising.outsSize, hrising.sortedIn, hrising.sortedOut,
    fun index t => ?_, fun index t => ?_, fun closed hclosed => ?_⟩
  · rcases hi : code[index]? with _ | i
    · simp [hrising.liveOut_eq_nil (by simpa [hlen] using hi), Follows, hi]
    · obtain ⟨next, ⟨hout, -⟩, hnext⟩ := hat index i hi
      simp [hout, Liveness.mem_flowOut, hnext]
  · rcases hi : code[index]? with _ | i
    · simp [hrising.liveIn_eq_nil (by simpa [hlen] using hi)]
    · obtain ⟨next, ⟨hout, hin⟩, -⟩ := hat index i hi
      simp [hin, hout, Liveness.mem_flowIn]
  · refine hrising.least closed fun index i next hi => ?_
    obtain ⟨hi, hnext⟩ := getElem?_zip_eq_some.mp hi
    refine ⟨(hclosed index i hi).1, fun s hs => ?_⟩
    exact (hclosed index i hi).2 s ((hfollows _ _ hnext s).mp hs)

theorem Labelled.exists_liveness (h : Labelled code) : ∃ live rounds, liveness code = .ok (live, rounds) := by
  obtain ⟨nexts, hnexts⟩ := h.exists_successors
  exact ⟨_, _, bind_eq_ok.mpr ⟨nexts, hnexts, rfl⟩⟩

end MmixCompiler
