import Mathlib.Data.BitVec
import MmixCompiler.Proofs.Register.Assignment
import MmixCompiler.Proofs.Register.Spilling

/-! Sequences of spills, as rounds of allocation make them. Each has a slot of its own, and a run of
the code before all of them is followed by the code after. -/

namespace MmixCompiler

open Mmix Fresh List

variable {u : Temp} {c : Config Octa Memory} {count : Nat} {live : Liveness}

/-- Spills one after the other, each of a temporary that exists and is not the frame pointer. -/
inductive Spills : Routine → Supply → List Temp → Routine → Supply → Prop where
  | nil (r : Routine) (s : Supply) : Spills r s [] r s
  | cons {r r₁ r' : Routine} {s s₁ s' : Supply} {t : Temp} {ts : List Temp} (ht : t < s.temps)
      (hfp : t ≠ r.frame.fp) (h : Gives (r.spill t) s r₁ s₁) (hrest : Spills r₁ s₁ ts r' s') :
      Spills r s (t :: ts) r' s'

/-- The supply is above all temporaries of the routine. -/
def Routine.Below (r : Routine) (s : Supply) : Prop :=
  r.frame.fp < s.temps ∧ ∀ i ∈ r.instrs, ∀ t ∈ i.temps, t < s.temps

def Routine.JumpsWriteNothing (r : Routine) : Prop :=
  ∀ o, .oper o ∈ r.instrs → o.jumps ≠ [] → o.defs = []

section
variable {r r' : Routine} {s s' : Supply} {t : Temp} {ts : List Temp}

namespace Routine

theorem temps_of_spill (h : Gives (r.spill t) s r' s') {i : Instr} (hi : i ∈ r'.instrs)
    (hu : u ∈ i.temps) : (∃ i' ∈ r.instrs, u ∈ i'.temps) ∧ u ≠ t ∨ u = r.frame.fp ∨
      s.temps ≤ u ∧ u < s'.temps := by
  obtain ⟨i', hi', block, hrel, hi⟩ := exists_block h hi
  apply (hrel.mem_temps hi hu).imp_left
  rintro ⟨hu, hne⟩
  exact ⟨⟨i', hi', hu⟩, hne⟩

theorem Below.spill (hr : r.Below s) (h : Gives (r.spill t) s r' s') : r'.Below s' := by
  have hle := (blocks_of_spill h).1
  rw [Below, frame_of_spill h]
  refine ⟨Nat.lt_of_lt_of_le hr.1 hle, fun i hi u hu => ?_⟩
  rcases temps_of_spill h hi hu with ⟨⟨i', hi', hu⟩, -⟩ | rfl | hu
  · exact Nat.lt_of_lt_of_le (hr.2 i' hi' u hu) hle
  · exact Nat.lt_of_lt_of_le hr.1 hle
  · exact hu.2

theorem JumpsWriteNothing.spill (hr : r.JumpsWriteNothing) (h : Gives (r.spill t) s r' s') : r'.JumpsWriteNothing := by
  intro o ho hjumps
  obtain ⟨i, hi, block, hrel, ho⟩ := exists_block h ho
  cases i with
  | label l => cases hrel; simp at ho
  | oper o₁ =>
    obtain ⟨new, rfl⟩ := hrel.of_jumps ho hjumps
    have hdefs : o₁.defs = [] := hr o₁ hi hjumps
    simp [Oper.rename, rename, hdefs]

end Routine

namespace Spills

section

variable (h : Spills r s ts r' s')

include h

theorem supply_le : s.temps ≤ s'.temps := by
  induction h with
  | nil => exact Nat.le_refl _
  | cons _ _ h _ ih => exact Nat.le_trans (Routine.blocks_of_spill h).1 ih

theorem frame_eq : r'.frame = r.frame := by
  induction h with
  | nil => rfl
  | cons _ _ h _ ih => exact ih.trans (Routine.frame_of_spill h)

theorem fp_notMem : r.frame.fp ∉ ts := by
  induction h with
  | nil => exact not_mem_nil
  | cons _ hfp h _ ih =>
    rw [mem_cons, not_or]
    exact ⟨hfp.symm, Routine.frame_of_spill h ▸ ih⟩

theorem keeps_below (hr : r.Below s) : r'.Below s' := by
  induction h with
  | nil => exact hr
  | cons _ _ h _ ih => exact ih (hr.spill h)

theorem spilled_eq : r'.spilled = r.spilled + 8 * ts.length := by
  induction h with
  | nil => simp
  | cons _ _ h _ ih =>
    obtain ⟨-, _, -, rfl⟩ := Routine.blocks_of_spill h
    rw [ih, length_cons]
    push_cast
    omega

theorem notMem_temps (hlt : u < s.temps)
    (hfp : u ≠ r.frame.fp) (hu : ∀ i ∈ r.instrs, u ∉ i.temps) : ∀ i ∈ r'.instrs, u ∉ i.temps := by
  induction h with
  | nil => exact hu
  | cons _ _ h _ ih =>
    refine ih (Nat.lt_of_lt_of_le hlt (Routine.blocks_of_spill h).1)
      (Routine.frame_of_spill h ▸ hfp) fun i hi hmem => ?_
    rcases Routine.temps_of_spill h hi hmem with ⟨⟨i', hi', hmem⟩, -⟩ | heq | hge
    · exact hu i' hi' hmem
    · exact hfp heq
    · exact absurd hlt (Nat.not_lt.mpr hge.1)

theorem notMem_of_mem (ht : t ∈ ts) : ∀ i ∈ r'.instrs, t ∉ i.temps := by
  induction h with
  | nil => simp at ht
  | cons hlt hfp h hrest ih =>
    rcases mem_cons.mp ht with rfl | ht
    · refine hrest.notMem_temps (Nat.lt_of_lt_of_le hlt (Routine.blocks_of_spill h).1)
        (Routine.frame_of_spill h ▸ hfp) fun i hi hmem => ?_
      rcases Routine.temps_of_spill h hi hmem with ⟨-, hne⟩ | heq | hge
      · exact hne rfl
      · exact hfp heq
      · exact absurd hlt (Nat.not_lt.mpr hge.1)
    · exact ih ht

end

end Spills

end

/-- The new code is where the old is, with the same words but for those that moved, which are in
their slots once they have been written. -/
structure Aside (ts : List Temp) (low : Nat) (slots : List (BitVec 61)) (start : Nat → Nat)
    (c d : Config Octa Memory) : Prop where
  index : d.index = start c.index
  temps : ∀ u < low, u ∉ ts → d.temps u = c.temps u
  mem : ∀ x ∉ slots, d.mem x = c.mem x
  choices : d.choices = c.choices
  written : ∀ u ∈ c.written, u ∉ ts → u ∈ d.written
  kept : ∀ t x, (t, x) ∈ ts.zip slots → t < low → t ∈ c.written → d.mem x = c.temps t

theorem Moved.aside {t : Temp} {ts : List Temp} {low low' : Nat} {x : BitVec 61}
    {slots : List (BitVec 61)} {start start' : Nat → Nat} {d d' : Config Octa Memory}
    (h : Moved t low x start c d) (h' : Aside ts low' slots start' d d') (hlow : low ≤ low')
    (ht : t ∉ ts) (hx : x ∉ slots) :
    Aside (t :: ts) low (x :: slots) (fun index => start' (start index)) c d' where
  index := by rw [h'.index, h.index]
  temps u hu hut := by
    rw [mem_cons, not_or] at hut
    rw [h'.temps u (by omega) hut.2, h.temps u hu hut.1]
  mem y hy := by
    rw [mem_cons, not_or] at hy
    rw [h'.mem y hy.2, h.mem y hy.1]
  choices := by rw [h'.choices, h.choices]
  written u hu hut := by
    rw [mem_cons, not_or] at hut
    exact h'.written u (h.written u hu hut.1) hut.2
  kept u y huy hu hwritten := by
    rw [zip_cons_cons, mem_cons, Prod.mk.injEq] at huy
    rcases huy with ⟨rfl, rfl⟩ | huy
    · rw [h'.mem y hx, h.kept hwritten]
    · have hut : u ≠ t := fun heq => ht (heq ▸ (of_mem_zip huy).1)
      rw [h'.kept u y huy (Nat.lt_of_lt_of_le hu hlow) (h.written u hwritten hut), h.temps u hu hut]

/-- The slots of as many spills of a routine, with the word of its frame pointer. -/
def Routine.slots (r : Routine) (fp : Octa) (count : Nat) : List (BitVec 61) :=
  (List.range count).map fun k : Nat => slot fp (r.lastSlot + 8 * (k + 1))

/-- The operations that reach slots of a routine have the machine's meaning. -/
def Routine.ReachesSlots (r : Routine) (count : Nat) (m : Meaning Octa Memory) : Prop :=
  ∀ k < count, ∀ new a, ∀ op ∈ fetch new a r.frame.fp (r.lastSlot + 8 * (k + 1)) ++
    keep new a r.frame.fp (r.lastSlot + 8 * (k + 1)), Faithful m op

section
variable {r r' : Routine} {s s' : Supply} {t : Temp} {ts : List Temp} {m : Meaning Octa Memory}

theorem Routine.slots_succ (fp : Octa) (count : Nat) (h : r'.lastSlot = r.lastSlot + 8) :
    r.slots fp (count + 1) = slot fp (r.lastSlot + 8) :: r'.slots fp count := by
  simp only [slots, range_succ_eq_map, map_cons, map_map, h]
  refine congrArg₂ _ (by simp) (map_congr_left fun k _ => ?_)
  simp only [Function.comp_apply]
  congr 1
  push_cast
  omega

theorem Routine.notMem_slots (fp : Octa) (h : r'.lastSlot = r.lastSlot + 8)
    (hcount : count < 2 ^ 61) : slot fp (r.lastSlot + 8) ∉ r'.slots fp count := by
  intro hmem
  obtain ⟨k, hk, heq⟩ := mem_map.mp hmem
  rw [mem_range] at hk
  rw [h] at heq
  exact slot_ne (n := k + 1) (by omega) (by omega) (by push_cast; exact heq)

/-- How the places of the old code lie in the new: in order, both ends at the ends. -/
structure Layered (start : Nat → Nat) (old new : Nat) : Prop where
  zero : start 0 = 0
  last : start old = new
  lt : ∀ i j, i < j → j ≤ old → start i < start j

theorem layered_blockStart {instrs : List Instr} {blocks : List (List Instr)} {fp : Temp}
    {distance : Int} {low high : Nat}
    (h : List.Forall₂ (Block t fp distance low high) instrs blocks) :
    Layered (blockStart blocks) instrs.length blocks.flatten.length := by
  have hnext : ∀ i < instrs.length, blockStart blocks i < blockStart blocks (i + 1) := fun i hi => by
    have hi : i < blocks.length := h.length_eq ▸ hi
    obtain ⟨i', -, hrel⟩ := exists_left_of_forall₂ h (getElem_mem hi)
    have hne : blocks[i] ≠ [] := by
      obtain ⟨l, -, heq⟩ | ⟨-, hne, -⟩ := hrel.label?_eq
      · rw [heq]; simp
      · exact hne
    have := length_pos_iff.mpr hne
    rw [blockStart_succ (getElem?_eq_getElem hi)]
    omega
  refine ⟨rfl, by simp [blockStart, h.length_eq], fun i j hij hj => ?_⟩
  induction j with
  | zero => exact absurd hij (Nat.not_lt_zero i)
  | succ j ih =>
    rcases Nat.lt_succ_iff_lt_or_eq.mp hij with hlt | rfl
    · exact Nat.lt_trans (ih hlt (by omega)) (hnext j (by omega))
    · exact hnext i (by omega)

theorem Layered.comp {start start' : Nat → Nat} {old mid new : Nat} (h : Layered start old mid)
    (h' : Layered start' mid new) : Layered (fun i => start' (start i)) old new := by
  refine ⟨by rw [h.zero, h'.zero], by rw [h.last, h'.last], fun i j hij hj => ?_⟩
  refine h'.lt _ _ (h.lt i j hij hj) ?_
  rcases Nat.lt_or_eq_of_le hj with hlt | rfl
  · exact h.last ▸ Nat.le_of_lt (h.lt j old hlt (Nat.le_refl _))
  · exact Nat.le_of_eq h.last

theorem Spills.runs (h : Spills r s ts r' s') (hr : r.Below s) (hjumps : r.JumpsWriteNothing)
    (hts : ts.Nodup) (hcount : ts.length < 2 ^ 61) (hm : r.ReachesSlots ts.length m)
    (temps : Temp → Octa) (mem : Memory) :
    ∃ start, Layered start r.instrs.length r'.instrs.length ∧
      ∀ c, Runs m r.instrs (Fair m r.frame.fp (r.slots (temps r.frame.fp) ts.length) ts) (.entry temps mem) c →
        ∃ d, Runs m r'.instrs (Fair m r.frame.fp [] []) (.entry temps mem) d ∧
          Aside ts s.temps (r.slots (temps r.frame.fp) ts.length) start c d := by
  induction h with
  | nil r s =>
    refine ⟨id, ⟨rfl, rfl, fun i j hij _ => hij⟩, fun c hrun => ⟨c, hrun, ?_⟩⟩
    exact ⟨rfl, fun _ _ _ => rfl, fun _ _ => rfl, rfl, fun u hu _ => hu, by simp⟩
  | @cons r r₁ r' s s₁ s' t ts ht hfp h hrest ih =>
    obtain ⟨hnot, hts⟩ := nodup_cons.mp hts
    rw [length_cons] at hcount hm
    have hr₁ := hr.spill h
    have hjumps₁ := hjumps.spill h
    have hframe := Routine.frame_of_spill h
    obtain ⟨hle, blocks, hblocks, rfl⟩ := Routine.blocks_of_spill h
    set r₁ : Routine := { r with spilled := r.spilled + 8, instrs := blocks.flatten }
    have hlast : r₁.lastSlot = r.lastSlot + 8 := by
      simp only [Routine.lastSlot, r₁]
      omega
    have hm₁ : r₁.ReachesSlots ts.length m := fun k hk new a op hop => by
      refine hm (k + 1) (by omega) new a op ?_
      rw [hlast] at hop
      push_cast at hop ⊢
      rwa [show r.lastSlot + 8 * ((k : Int) + 1 + 1) = r.lastSlot + 8 + 8 * (k + 1) by omega]
    obtain ⟨start, hstart, hfollow⟩ := ih hr₁ hjumps₁ hts (by omega) hm₁
    have hslots := Routine.slots_succ (temps r.frame.fp) ts.length hlast
    have hslot := Routine.notMem_slots (temps r.frame.fp) hlast (show ts.length < 2 ^ 61 by omega)
    refine ⟨_, (layered_blockStart hblocks).comp hstart, fun c hrun => ?_⟩
    rw [length_cons, hslots] at hrun ⊢
    have M : Move m r.instrs blocks t r.frame.fp (r.lastSlot + 8) s.temps s₁.temps (temps r.frame.fp)
        (r₁.slots (temps r.frame.fp) ts.length) ts := by
      refine ⟨hblocks, hr.2, ⟨ht, hfp, hnot⟩, ⟨hr.1, hrest.fp_notMem⟩, hjumps, ?_, hslot⟩
      simpa using hm 0 (by omega)
    have hentry : Moved t s.temps (slot (temps r.frame.fp) (r.lastSlot + 8)) (blockStart blocks)
        (.entry temps mem) (.entry temps mem) :=
      ⟨⟨fun _ _ _ => rfl, fun _ _ => rfl, rfl, fun _ h _ => h⟩, rfl, by simp [Config.entry]⟩
    obtain ⟨-, d₁, hrun₁, hmoved⟩ := M.run hentry rfl hrun
    obtain ⟨d, hrun, haside⟩ := hfollow d₁ hrun₁
    exact ⟨d, hrun, hmoved.aside haside hle hnot hslot⟩

/-- Whatever is live has been written, or was live at the beginning. -/
theorem written_of_live {code : List Instr} (hsolves : live.Solves code)
    {ok : Oper → Config Octa Memory → Prop} {temps : Temp → Octa} {mem : Memory}
    (hrun : Runs m code ok (.entry temps mem) c) (hu : u ∈ live.liveIn c.index) :
    u ∈ c.written ∨ u ∈ live.liveIn 0 := by
  induction hrun with
  | refl => exact .inr hu
  | snoc _ _ hstep ih =>
    have hout := hsolves.liveOut_of_step hstep hu
    obtain ⟨l, hi, rfl⟩ | ⟨o, index, hi, -, rfl⟩ := step_cases hstep
    · exact ih ((hsolves.mem_in _ _).mpr ⟨_, hi, .inr ⟨hout, not_mem_nil⟩⟩)
    · by_cases hdef : u ∈ o.defs
      · exact .inl (mem_append_right _ hdef)
      · exact (ih ((hsolves.mem_in _ _).mpr ⟨_, hi, .inr ⟨hout, hdef⟩⟩)).imp_left (mem_append_left _)

/-- What is not live at the beginning is never read before it has been written. -/
theorem fair_of_notLive {code : List Instr} (hsolves : live.Solves code)
    {fp : Temp} {slots : List (BitVec 61)} {temps : Temp → Octa} {mem : Memory}
    (hrun : Runs m code (Fair m fp slots []) (.entry temps mem) c)
    (hts : ∀ t ∈ ts, t ∉ live.liveIn 0) : Runs m code (Fair m fp slots ts) (.entry temps mem) c := by
  induction hrun with
  | refl => exact .refl
  | snoc hrun hok hstep ih =>
    refine .snoc ih (fun o ho => ⟨(hok o ho).avoids, (hok o ho).frame, fun t ht huse => ?_⟩) hstep
    have hlive := (hsolves.mem_in _ _).mpr ⟨_, ho, .inl huse⟩
    exact (written_of_live hsolves hrun hlive).resolve_right (hts t ht)

end

/-- Some rounds of allocation that find no registers, and what they spill. -/
inductive SpillRounds (registers : Nat) : Routine → Supply → List Temp → Routine → Supply → Prop where
  | nil (r : Routine) (s : Supply) : SpillRounds registers r s [] r s
  | cons {r r₁ r' : Routine} {s s₁ s' : Supply} {live : Liveness} {passes : Nat} {spills : TempSet}
      {ts : List Temp} {events : List AllocationEvent} (hlive : liveness r.instrs = .ok (live, passes))
      (hspills : ((Interference.ofCode r.instrs live r.frame.fp).color registers).spills = spills)
      (h : Gives (r.spillAll spills) s (r₁, events) s₁)
      (hrest : SpillRounds registers r₁ s₁ ts r' s') :
      SpillRounds registers r s (spills ++ ts) r' s'

section
variable {r r' : Routine} {s s' : Supply} {ts : List Temp} {registers : Nat}

theorem spills_of_spillAll {events : List AllocationEvent}
    (h : Gives (r.spillAll ts) s (r', events) s') (hts : ∀ t ∈ ts, t < s.temps ∧ t ≠ r.frame.fp) :
    Spills r s ts r' s' := by
  induction ts generalizing r s events with
  | nil =>
    simp only [Routine.spillAll, gives_pure, Prod.mk.injEq] at h
    obtain ⟨⟨rfl, -⟩, rfl⟩ := h
    exact .nil r s
  | cons t ts ih =>
    simp only [Routine.spillAll, gives_bind, gives_pure] at h
    obtain ⟨r₁, s₁, h₁, p, s₂, h₂, heq, rfl⟩ := h
    cases heq
    obtain ⟨ht, hfp⟩ := hts t mem_cons_self
    refine .cons ht hfp h₁ (ih h₂ fun u hu => ?_)
    obtain ⟨hlt, hne⟩ := hts u (mem_cons_of_mem _ hu)
    exact ⟨Nat.lt_of_lt_of_le hlt (Routine.blocks_of_spill h₁).1, Routine.frame_of_spill h₁ ▸ hne⟩

theorem Spills.append {r₁ : Routine} {s₁ : Supply} {ts' : List Temp} (h : Spills r s ts r₁ s₁)
    (h' : Spills r₁ s₁ ts' r' s') : Spills r s (ts ++ ts') r' s' := by
  induction h with
  | nil => exact h'
  | cons ht hfp h _ ih => exact .cons ht hfp h (ih h')

theorem mem_of_spills {passes : Nat} (hlive : liveness r.instrs = .ok (live, passes))
    {t : Temp} (ht : t ∈ ((Interference.ofCode r.instrs live r.frame.fp).color registers).spills) :
    t ≠ r.frame.fp ∧ ∃ i ∈ r.instrs, t ∈ i.temps := by
  have hsolves := (liveness_solves hlive).2
  have hnode := (Interference.proper_ofCode hsolves.sorted).spills_color_subset ht
  obtain ⟨hfp, i, hi, ht⟩ := (Interference.mem_nodes_ofCode hsolves).mp hnode
  exact ⟨hfp, i, hi, mem_append.mpr ht⟩

/-- Rounds of allocation spill temporaries that exist, none of them twice. -/
theorem SpillRounds.spills (h : SpillRounds registers r s ts r' s') (hr : r.Below s) :
    Spills r s ts r' s' ∧ ts.Nodup ∧ ∀ t ∈ ts, (∃ i ∈ r.instrs, t ∈ i.temps) ∨ s.temps ≤ t := by
  induction h with
  | nil r s => exact ⟨.nil r s, nodup_nil, by simp⟩
  | @cons r r₁ r' s s₁ s' live passes spills ts events hlive hspills h hrest ih =>
    have hmem : ∀ t ∈ spills, t ≠ r.frame.fp ∧ ∃ i ∈ r.instrs, t ∈ i.temps := fun t ht =>
      mem_of_spills hlive (hspills.symm ▸ ht)
    have hlt : ∀ t ∈ spills, t < s.temps ∧ t ≠ r.frame.fp := fun t ht => by
      obtain ⟨hfp, i, hi, ht⟩ := hmem t ht
      exact ⟨hr.2 i hi t ht, hfp⟩
    have hfirst := spills_of_spillAll h hlt
    obtain ⟨hlater, hnodup, hfrom⟩ := ih (hfirst.keeps_below hr)
    have hsorted : spills.Nodup := hspills ▸ (TempSet.sorted_ofList _).nodup
    refine ⟨hfirst.append hlater, nodup_append'.mpr ⟨hsorted, hnodup, fun t ht ht' => ?_⟩, fun t ht => ?_⟩
    · rcases hfrom t ht' with ⟨i, hi, hmem⟩ | hge
      · exact hfirst.notMem_of_mem ht i hi hmem
      · exact absurd (Nat.lt_of_lt_of_le (hlt t ht).1 hfirst.supply_le) (Nat.not_lt.mpr hge)
    · rcases mem_append.mp ht with ht | ht
      · exact .inl (hmem t ht).2
      · by_contra hnot
        simp only [not_or, not_exists, not_and, Nat.not_le] at hnot
        rcases hfrom t ht with ⟨i, hi, hmem⟩ | hge
        · refine hfirst.notMem_temps hnot.2 ?_ hnot.1 i hi hmem
          rw [← hfirst.frame_eq]
          rintro rfl
          exact hlater.fp_notMem ht
        · exact absurd (Nat.lt_of_lt_of_le hnot.2 hfirst.supply_le) (Nat.not_lt.mpr hge)

/-- Allocation is some rounds of spills, and one that finds registers. -/
theorem spillRounds_of_rounds {bound : Nat} {a : Routine.Allocated}
    (h : Gives (Routine.rounds registers bound count r) s a s') :
    ∃ ts r', SpillRounds registers r s ts r' s' ∧ a.routine = { r' with registers := a.routine.registers } := by
  induction bound generalizing count r s a with
  | zero => exact absurd h not_gives_fail
  | succ bound ih =>
    simp only [Routine.rounds, gives_bind, gives_lift] at h
    obtain ⟨⟨live, passes⟩, s₁, ⟨hlive, rfl⟩, h⟩ := h
    split at h
    · split at h
      · exact absurd h not_gives_fail
      · obtain ⟨rfl, rfl⟩ := gives_pure.mp h
        exact ⟨[], r, .nil r s, rfl⟩
    · simp only [gives_bind, gives_pure] at h
      obtain ⟨⟨r₁, events⟩, s₂, hspill, result, s₃, hrounds, rfl, rfl⟩ := h
      obtain ⟨ts, r', hrest, heq⟩ := ih hrounds
      exact ⟨_, r', .cons hlive rfl hspill hrest, heq⟩

theorem exists_spill (i : Instr) (t fp : Temp) (distance : Int) (s : Supply) :
    ∃ block s', Gives (i.spill t fp distance) s block s' := by
  cases i with
  | label l => exact ⟨_, s, gives_pure.mpr ⟨rfl, rfl⟩⟩
  | oper o => exact ⟨_, _, gives_spill.mpr ⟨rfl, rfl⟩⟩

theorem Routine.exists_spill (r : Routine) (t : Temp) (s : Supply) : ∃ r' s', Gives (r.spill t) s r' s' := by
  simp only [spill, gives_bind, gives_pure]
  obtain ⟨blocks, s', h⟩ := exists_gives_mapM (fun (i : Instr) (_ : i ∈ r.instrs) =>
    MmixCompiler.exists_spill i t r.frame.fp (lastSlot { r with spilled := r.spilled + Word.size })) s
  exact ⟨_, s', blocks, s', h, rfl, rfl⟩

theorem Routine.nodup_slots (r : Routine) (fp : Octa) (h : count ≤ 2 ^ 61) : (r.slots fp count).Nodup := by
  have hne : ∀ j k : Nat, j < k → k < count →
      slot fp (r.lastSlot + 8 * (k + 1)) ≠ slot fp (r.lastSlot + 8 * (j + 1)) := fun j k hjk hk => by
    have hdistance : r.lastSlot + 8 * (k + 1) = r.lastSlot + 8 * (j + 1) + 8 * ((k - j : Nat) : Int) := by
      omega
    rw [hdistance]
    exact slot_ne (by omega) (by omega)
  refine List.Nodup.map_on (fun j hj k hk heq => ?_) nodup_range
  rw [mem_range] at hj hk
  rcases Nat.lt_trichotomy j k with hlt | heq' | hlt
  · exact absurd heq.symm (hne j k hlt hk)
  · exact heq'
  · exact absurd heq (hne k j hlt hj)

theorem Routine.slots_append (r : Routine) (fp : Octa) {earlier : Nat} (h : r.spilled = 8 * earlier)
    (count : Nat) : ({ r with spilled := 0 } : Routine).slots fp earlier ++ r.slots fp count =
      ({ r with spilled := 0 } : Routine).slots fp (earlier + count) := by
  simp only [slots, range_add, map_append, map_map]
  refine congrArg _ (map_congr_left fun k _ => ?_)
  simp only [Function.comp_apply, lastSlot, h]
  congr 1
  push_cast
  omega

end

/-- Temporaries may move to the frame, one or many, and as many as rounds of allocation choose. What
has moved is mentioned no more, each has a slot of its own, and the new code follows every run of the
old code that leaves these slots alone. -/
theorem spills_preserve_execution {r : Routine} {s : Supply} (hr : r.Below s) (hjumps : r.JumpsWriteNothing) :
    (∀ t < s.temps, t ≠ r.frame.fp → ∃ r' s', Gives (r.spill t) s r' s' ∧ Spills r s [t] r' s') ∧
    (∀ registers ts r' s', SpillRounds registers r s ts r' s' → Spills r s ts r' s' ∧ ts.Nodup) ∧
    (∀ registers a s', Gives (r.allocate registers) s a s' → ∃ ts r',
      SpillRounds registers r s ts r' s' ∧ a.routine = { r' with registers := a.routine.registers }) ∧
    ∀ ts r' s', Spills r s ts r' s' → ts.Nodup → ts.length < 2 ^ 61 →
      (∀ t ∈ ts, ∀ i ∈ r'.instrs, t ∉ i.temps) ∧
      r'.spilled = r.spilled + 8 * ts.length ∧
      (∀ (fp : Octa) (earlier : Nat), r.spilled = 8 * earlier → earlier + ts.length ≤ 2 ^ 61 →
        (({ r with spilled := 0 } : Routine).slots fp earlier ++ r.slots fp ts.length).Nodup) ∧
      ∀ live passes, liveness r.instrs = .ok (live, passes) →
        (∀ t ∈ ts, t < s.temps → t ∉ live.liveIn 0) →
        ∀ m, r.ReachesSlots ts.length m → ∀ temps mem,
          ∃ start, Layered start r.instrs.length r'.instrs.length ∧
            ∀ c, Runs m r.instrs (Fair m r.frame.fp (r.slots (temps r.frame.fp) ts.length) [])
              (.entry temps mem) c →
              ∃ d, Runs m r'.instrs (fun _ _ => True) (.entry temps mem) d ∧
                Aside ts s.temps (r.slots (temps r.frame.fp) ts.length) start c d := by
  refine ⟨fun t ht hfp => ?_, fun registers ts r' s' h => ?_,
    fun registers a s' h => spillRounds_of_rounds h, fun ts r' s' h hts hcount =>
      ⟨fun t ht => h.notMem_of_mem ht, h.spilled_eq, fun fp earlier hearlier hle => ?_,
      fun live passes hlive hentry m hm temps mem => ?_⟩⟩
  · obtain ⟨r', s', h⟩ := r.exists_spill t s
    exact ⟨r', s', h, .cons ht hfp h (.nil r' s')⟩
  · exact ⟨(h.spills hr).1, (h.spills hr).2.1⟩
  · rw [Routine.slots_append r fp hearlier]
    exact Routine.nodup_slots _ fp hle
  · have hsolves := (liveness_solves hlive).2
    have hnotLive : ∀ t ∈ ts, t ∉ live.liveIn 0 := fun t ht hmem => by
      obtain ⟨i, hi, huse⟩ := hsolves.exists_use hmem
      exact hentry t ht (hr.2 i hi t (mem_append_left _ huse)) hmem
    obtain ⟨start, hstart, hfollow⟩ := h.runs hr hjumps hts hcount hm temps mem
    refine ⟨start, hstart, fun c hrun => ?_⟩
    obtain ⟨d, hrun', haside⟩ := hfollow c (fair_of_notLive hsolves hrun hnotLive)
    exact ⟨d, hrun'.mono fun _ _ _ => trivial, haside⟩

def doubled : Routine where
  frame := ⟨.named "doubled", 1, 0, 0, 0, 1⟩
  entry := .fresh 0
  exit := .fresh 1
  instrs := [.oper ⟨"SETL `d0,5", [], [2], []⟩, .oper ⟨"ADD `d0,`s0,`s1", [2, 2], [3], []⟩]

/-- A machine that adds up what it reads, but for what reaches the first slot. -/
def addingUp : Meaning Octa Memory := fun template _ words mem =>
  if template = "SETL `d0,5" then ⟨fun _ => 5, mem, none⟩
  else if template = "SETL `d0,24" then ⟨fun _ => 24, mem, none⟩
  else if template = "SUB `d0,`s0,`s1" then ⟨fun _ => words.getD 0 0 - words.getD 1 0, mem, none⟩
  else if template = "LDO `d0,`s0,0" then ⟨fun _ => mem (cell (words.getD 0 0)), mem, none⟩
  else if template = "STO `s0,`s1,0" then
    ⟨fun _ => 0, mem.set (cell (words.getD 1 0)) (words.getD 0 0), none⟩
  else ⟨fun _ => words.sum, mem, none⟩

theorem addingUp_faithful {op : Op} {T : String} (hT : op.oper.template = T)
    (h : ∀ words mem v mem', op.outcome? words mem = some (v, mem') →
      addingUp T op.jumps words mem = ⟨fun _ => v.getD 0, mem', none⟩) : Faithful addingUp op := by
  intro words mem v mem' hop
  rw [hT, show op.oper.jumps = op.jumps from rfl, h words mem v mem' hop]
  refine ⟨?_, rfl, rfl⟩
  rintro x rfl
  rfl

theorem addingUp_reachesSlots : doubled.ReachesSlots 1 addingUp := by
  intro k hk new a op hop
  obtain rfl : k = 0 := by omega
  have hops : op ∈ [.set (.temp a) 24, .inc .mediumLow (.temp a) 0, .inc .mediumHigh (.temp a) 0,
      .inc .high (.temp a) 0, .alu .sub (.temp a) (.temp 0) (.reg (.temp a)),
      .load (.temp new) (.temp a) (.imm 0), .store (.temp new) (.temp a) (.imm 0)] := by
    have hdistance : doubled.lastSlot + 8 * (((0 : Nat) : Int) + 1) = 24 := by decide
    rw [hdistance] at hop
    rcases mem_append.mp hop with hop | hop <;>
      simp [fetch, keep, slotOps, loadConst, wyde, doubled] at hop ⊢ <;> grind
  simp only [mem_cons, not_mem_nil, or_false] at hops
  rcases hops with rfl | rfl | rfl | rfl | rfl | rfl | rfl
  · refine addingUp_faithful (T := "SETL `d0,24") rfl fun words mem v mem' h => ?_
    rcases words with _ | ⟨x, rest⟩ <;> cases h
    rfl
  · refine addingUp_faithful (T := "INCML `d0,0") rfl fun words mem v mem' h => ?_
    rcases words with _ | ⟨x, _ | ⟨y, rest⟩⟩ <;> cases h
    simp [addingUp]
  · refine addingUp_faithful (T := "INCMH `d0,0") rfl fun words mem v mem' h => ?_
    rcases words with _ | ⟨x, _ | ⟨y, rest⟩⟩ <;> cases h
    simp [addingUp]
  · refine addingUp_faithful (T := "INCH `d0,0") rfl fun words mem v mem' h => ?_
    rcases words with _ | ⟨x, _ | ⟨y, rest⟩⟩ <;> cases h
    simp [addingUp]
  · refine addingUp_faithful (T := "SUB `d0,`s0,`s1") rfl fun words mem v mem' h => ?_
    rcases words with _ | ⟨x, _ | ⟨y, _ | ⟨z, rest⟩⟩⟩ <;> cases h
    simp [addingUp]
  · refine addingUp_faithful (T := "LDO `d0,`s0,0") rfl fun words mem v mem' h => ?_
    rcases words with _ | ⟨x, _ | ⟨y, rest⟩⟩ <;> cases h
    simp [addingUp]
  · refine addingUp_faithful (T := "STO `s0,`s1,0") rfl fun words mem v mem' h => ?_
    rcases words with _ | ⟨x, _ | ⟨y, _ | ⟨z, rest⟩⟩⟩ <;> cases h
    simp [addingUp]

theorem doubled_runs (slots : List (BitVec 61)) : ∃ c : Config Octa Memory,
    Runs addingUp doubled.instrs (Fair addingUp 0 slots []) (.entry (fun _ => 0) fun _ => 0) c ∧
      2 ∈ c.written ∧ c.temps 2 = 5 ∧ c.temps 3 = 10 := by
  refine ⟨_, .trans (.single rfl ?_ rfl) (.single rfl ?_ rfl), ?_, rfl, rfl⟩
  · exact ⟨fun mem hmem => ⟨fun _ _ => rfl, rfl, hmem, fun _ _ => rfl⟩, rfl, by simp⟩
  · exact ⟨fun mem hmem => ⟨fun _ _ => rfl, rfl, hmem, fun _ _ => rfl⟩, rfl, by simp⟩
  · simp [Config.advance, Config.entry]

theorem doubled_in_frame : ∃ r' s' d, Gives (doubled.spill 2) ⟨4, 2⟩ r' s' ∧
    Runs addingUp r'.instrs (fun _ _ => True) (.entry (fun _ => 0) fun _ => 0) d ∧
      d.temps 3 = 10 ∧ d.mem (slot 0 24) = 5 := by
  have hbelow : doubled.Below ⟨4, 2⟩ := by
    simp [Routine.Below, doubled, Instr.temps, Instr.uses, Instr.defs]
  have hjumps : doubled.JumpsWriteNothing := by
    rintro o ho hjumps
    simp only [doubled, mem_cons, Instr.oper.injEq, not_mem_nil, or_false] at ho
    rcases ho with rfl | rfl <;> simp at hjumps
  obtain ⟨hspill, -, -, hall⟩ := spills_preserve_execution hbelow hjumps
  obtain ⟨r', s', h, hspills⟩ := hspill 2 (by decide) (by decide)
  obtain ⟨-, -, -, hfollow⟩ := hall [2] r' s' hspills (by simp) (by simp)
  have hlabelled : Labelled doubled.instrs :=
    ⟨nodup_nil, by simp [doubled, Instr.jumps]⟩
  obtain ⟨live, passes, hlive⟩ := hlabelled.exists_liveness
  have hentry : 2 ∉ live.liveIn 0 := by
    rw [(liveness_solves hlive).2.mem_in]
    simp [doubled, Instr.uses, Instr.defs]
  obtain ⟨start, -, hrun⟩ := hfollow live passes hlive (by simpa using hentry) addingUp
    addingUp_reachesSlots (fun _ => 0) fun _ => 0
  obtain ⟨c, hc, hwritten, htwo, hthree⟩ := doubled_runs (doubled.slots 0 1)
  obtain ⟨d, hd, haside⟩ := hrun c hc
  refine ⟨r', s', d, h, hd, (haside.temps 3 (by decide) (by simp)).trans hthree, ?_⟩
  exact (haside.kept 2 (slot 0 24) (by simp [Routine.slots, doubled, Routine.lastSlot, Frame.overhead,
    Word.size]) (by decide) hwritten).trans htwo

end MmixCompiler
