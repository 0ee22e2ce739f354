import MmixCompiler.Proofs.Fresh
import MmixCompiler.Proofs.Mmix.Execution
import MmixCompiler.Proofs.Register.Coloring
import MmixCompiler.Proofs.Register.LivePaths
import MmixCompiler.Register.Allocation

/-! Running code over registers instead of temporaries. A step keeps the words of live temporaries in
their registers, since no two temporaries that are live at once share one, and what is written
shares none with what stays live. -/

namespace MmixCompiler

open Mmix Fresh

def Mmix.Registers.place (regs : Registers) (fp t : Temp) : Nat :=
  if t = fp then 253 else regs.getD t 0

/-- An instruction with registers in place of temporaries. -/
def Mmix.Instr.place (place : Temp → Nat) : Instr → Instr
  | .label l => .label l
  | .oper o => .oper { o with uses := o.uses.map place, defs := o.defs.map place }

theorem labelIndex?_place (place : Temp → Nat) (code : List Instr) (l : Label) :
    labelIndex? (code.map (Instr.place place)) l = labelIndex? code l := by
  have h : ((fun i : Instr => decide (i.label? = some l)) ∘ Instr.place place) =
      fun i => decide (i.label? = some l) := by
    funext i
    cases i <;> rfl
  rw [labelIndex?, List.findIdx?_map, h]
  rfl

section
variable {Val Mem : Type} {m : Meaning Val Mem} {code : List Instr} {live : Liveness}
  {place : Temp → Nat} {c c' d : Config Val Mem}

/-- The place, the memory and the choices are the same, and live temporaries are in their
registers. -/
structure Held (live : Liveness) (place : Temp → Nat) (c d : Config Val Mem) : Prop where
  index : d.index = c.index
  mem : d.mem = c.mem
  choices : d.choices = c.choices
  temps : ∀ t ∈ live.liveIn c.index, d.temps (place t) = c.temps t

theorem follows_of_step (h : step m code c = some c') (hlt : c'.index < code.length) :
    Follows code c.index c'.index := by
  obtain ⟨l, hi, rfl⟩ | ⟨o, index, hi, hnext, rfl⟩ := step_cases h
  · exact ⟨_, hi, .inl ⟨rfl, hlt⟩⟩
  · refine ⟨_, hi, ?_⟩
    unfold Oper.next at hnext
    split at hnext
    · cases hnext; exact .inl ⟨rfl, hlt⟩
    · obtain ⟨l, hl, hnext⟩ := Option.bind_eq_some_iff.mp hnext
      exact .inr ⟨l, List.mem_of_getElem? hl, hnext⟩

theorem Liveness.Solves.liveOut_of_step (hsolves : live.Solves code) (hstep : step m code c = some c')
    {t : Temp} (ht : t ∈ live.liveIn c'.index) : t ∈ live.liveOut c.index := by
  obtain ⟨i, hi, -⟩ := (hsolves.mem_in _ _).mp ht
  obtain ⟨hlt, -⟩ := List.getElem?_eq_some_iff.mp hi
  exact (hsolves.mem_out _ _).mpr ⟨_, follows_of_step hstep hlt, ht⟩

theorem Held.step (hsolves : live.Solves code)
    (hplace : ∀ a b, Clash code live a b → place a = place b → a = b) (h : Held live place c d)
    (hstep : Mmix.step m code c = some c') :
    ∃ d', Mmix.step m (code.map (Instr.place place)) d = some d' ∧ Held live place c' d' := by
  have hout : ∀ t ∈ live.liveIn c'.index, t ∈ live.liveOut c.index := fun t ht => hsolves.liveOut_of_step hstep ht
  have hcode : ∀ i, code[c.index]? = some i →
      (code.map (Instr.place place))[d.index]? = some (i.place place) := fun i hi => by
    rw [h.index, List.getElem?_map, hi]; rfl
  obtain ⟨l, hi, rfl⟩ | ⟨o, index, hi, hnext, rfl⟩ := step_cases hstep
  · refine ⟨_, step_label (hcode _ hi), by simp [h.index], h.mem, h.choices, fun t ht => ?_⟩
    exact h.temps t ((hsolves.mem_in _ _).mpr ⟨_, hi, .inr ⟨hout t ht, List.not_mem_nil⟩⟩)
  · have heffect : (Oper.mk o.template (o.uses.map place) (o.defs.map place) o.jumps).effect m d = o.effect m c := by
      simp only [Oper.effect, List.map_map, h.mem]
      congr 1
      exact List.map_congr_left fun t ht => h.temps t ((hsolves.mem_in _ _).mpr ⟨_, hi, .inl ht⟩)
    have hnext' : (Oper.mk o.template (o.uses.map place) (o.defs.map place) o.jumps).next
        (code.map (Instr.place place)) d.index (o.effect m c).choice = some index := by
      rw [← hnext, h.index]
      cases (o.effect m c).choice with
      | none => rfl
      | some k => simp only [Oper.next, funext (labelIndex?_place place code)]
    refine ⟨_, step_oper (hcode _ hi) (by rw [heffect]; exact hnext'), rfl, ?_, ?_, fun t ht => ?_⟩
    · rw [heffect]; rfl
    · simp only [Config.advance, heffect, h.choices]
    · -- what is written shares no register with what is live after
      simp only [Config.advance, heffect]
      refine writeAll_map (fun u hu => hplace u t ?_) ?_
      · exact ⟨c.index, .inr (.inr ⟨_, hi, .inl ⟨hu, hout t ht⟩⟩)⟩
      · refine or_iff_not_imp_left.mpr fun hdef => h.temps t ?_
        exact (hsolves.mem_in _ _).mpr ⟨_, hi, .inr ⟨hout t ht, hdef⟩⟩

theorem Held.run (hsolves : live.Solves code)
    (hplace : ∀ a b, Clash code live a b → place a = place b → a = b) (h : Held live place c d)
    {n : Nat} (hrun : Mmix.run m code n c = some c') :
    ∃ d', Mmix.run m (code.map (Instr.place place)) n d = some d' ∧ Held live place c' d' := by
  induction n generalizing c d with
  | zero => exact ⟨d, rfl, Option.some.inj hrun ▸ h⟩
  | succ n ih =>
    obtain ⟨c₁, hstep, hrun⟩ := Option.bind_eq_some_iff.mp hrun
    obtain ⟨d₁, hstep', h₁⟩ := h.step hsolves hplace hstep
    obtain ⟨d', hrun', h'⟩ := ih h₁ hrun
    exact ⟨d', Option.bind_eq_some_iff.mpr ⟨d₁, hstep', hrun'⟩, h'⟩

end

namespace Routine

variable {r : Routine} {s s' : Supply} {registers : Nat}

theorem frame_of_spill {t : Temp} {r' : Routine} (h : Gives (r.spill t) s r' s') : r'.frame = r.frame := by
  simp only [spill, gives_bind, gives_pure] at h
  obtain ⟨instrs, s₁, -, rfl, -⟩ := h
  rfl

theorem frame_of_spillAll {ts : List Temp} {p : Routine × List AllocationEvent}
    (h : Gives (r.spillAll ts) s p s') : p.1.frame = r.frame := by
  induction ts generalizing r s s' p with
  | nil =>
    simp only [spillAll, gives_pure] at h
    rw [← h.1]
  | cons t ts ih =>
    simp only [spillAll, gives_bind, gives_pure] at h
    obtain ⟨r₁, s₁, h₁, p₁, s₂, h₂, rfl, -⟩ := h
    have hframe : p₁.1.frame = r₁.frame := ih h₂
    exact hframe.trans (frame_of_spill h₁)

/-- Allocation ends with code that it colours without spills and without conflict. -/
theorem exists_colors_of_rounds {bound count : Nat} {a : Allocated}
    (h : Gives (rounds registers bound count r) s a s') :
    a.routine.frame = r.frame ∧ ∃ passes colors, liveness a.routine.instrs = .ok (a.liveness, passes) ∧
        a.routine.registers = some colors ∧
          let graph := Interference.ofCode a.routine.instrs a.liveness r.frame.fp
          (graph.color registers).registers? = some colors ∧ graph.conflict? colors = none := by
  induction bound generalizing count r s s' a with
  | zero => exact absurd h not_gives_fail
  | succ bound ih =>
    simp only [rounds, gives_bind, gives_lift] at h
    obtain ⟨⟨live, passes⟩, s₁, ⟨hlive, rfl⟩, h⟩ := h
    split at h
    · rename_i colors hcolors
      split at h
      · exact absurd h not_gives_fail
      · rename_i hconflict
        obtain ⟨rfl, -⟩ := gives_pure.mp h
        exact ⟨rfl, passes, colors, hlive, rfl, hcolors, hconflict⟩
    · simp only [gives_bind, gives_pure] at h
      obtain ⟨⟨r₁, spills⟩, s₂, hspill, result, s₃, hrounds, rfl, -⟩ := h
      have hframe : r₁.frame = r.frame := frame_of_spillAll hspill
      obtain ⟨hresult, passes', colors, hlive', hregisters, hcolors, hconflict⟩ := ih hrounds
      rw [hframe] at hresult hcolors hconflict
      exact ⟨hresult, passes', colors, hlive', hregisters, hcolors, hconflict⟩

end Routine

/-- Allocation gives every temporary but the frame pointer one of the registers. Running the code
over registers follows running it over temporaries, step by step, from wherever live temporaries are
in their registers and whatever operations do. -/
theorem allocate_preserves_execution {registers : Nat} (hregisters : registers ≤ 252) {r : Routine}
    {s s' : Supply} {a : Routine.Allocated} (h : Gives (r.allocate registers) s a s') :
    ∃ regs, a.routine.registers = some regs ∧
      (∀ i ∈ a.routine.instrs, ∀ t, t ∈ i.uses ∨ t ∈ i.defs → t ≠ r.frame.fp →
        ∃ n < registers, regs[t]? = some n) ∧
      ∀ (Val Mem : Type) (m : Meaning Val Mem) (c d : Config Val Mem),
        Held a.liveness (regs.place r.frame.fp) c d →
        ∀ n c', run m a.routine.instrs n c = some c' →
          ∃ d', run m (a.routine.instrs.map (Instr.place (regs.place r.frame.fp))) n d = some d' ∧
            Held a.liveness (regs.place r.frame.fp) c' d' := by
  obtain ⟨hframe, passes, regs, hlive, hregs, hcolors, hconflict⟩ :=
    Routine.exists_colors_of_rounds h
  have hsolves := (liveness_solves hlive).2
  have hsome : ∀ t, (∃ i ∈ a.routine.instrs, t ∈ i.uses ∨ t ∈ i.defs) → t ≠ r.frame.fp →
      ∃ n < registers, regs[t]? = some n := fun t ht hne =>
    (Interference.proper_ofCode hsolves.sorted).color_spec hcolors
      ((Interference.mem_nodes_ofCode hsolves).mpr ⟨hne, ht⟩)
  have hplace : ∀ t n, t ≠ r.frame.fp → regs[t]? = some n → regs.place r.frame.fp t = n :=
    fun t n hne hn => by simp [Registers.place, hne, Std.TreeMap.getD_eq_getD_getElem?, hn]
  -- the frame pointer's register is above all others, so only the others can meet
  have hfp : ∀ t, (∃ i ∈ a.routine.instrs, t ∈ i.uses ∨ t ∈ i.defs) → t ≠ r.frame.fp →
      regs.place r.frame.fp t ≠ regs.place r.frame.fp r.frame.fp := fun t ht hne => by
    obtain ⟨n, hn, hreg⟩ := hsome t ht hne
    rw [hplace t n hne hreg, Registers.place, if_pos rfl]
    omega
  refine ⟨regs, hregs, fun i hi t ht => hsome t ⟨i, hi, ht⟩, fun Val Mem m c d hheld n c' hrun => ?_⟩
  refine hheld.run hsolves (fun t u hclash heq => ?_) hrun
  have ht := hclash.mem_left hsolves
  have hu := hclash.symm.mem_left hsolves
  by_contra hne
  rcases eq_or_ne t r.frame.fp with rfl | htfp
  · exact hfp u hu (Ne.symm hne) heq.symm
  rcases eq_or_ne u r.frame.fp with rfl | hufp
  · exact hfp t ht htfp heq
  obtain ⟨n, -, hn⟩ := hsome t ht htfp
  obtain ⟨k, -, hk⟩ := hsome u hu hufp
  refine Interference.ne_of_conflict? hconflict
    ((Interference.mem_nodes_ofCode hsolves).mpr ⟨htfp, ht⟩)
    (Interference.mem_neighbours_iff_clash.mpr ⟨hne, htfp, hufp, hclash⟩) ?_
  rw [hplace t n htfp hn, hplace u k hufp hk] at heq
  rw [hn, hk, heq]

/-- Adds up a number and those below it, and stores the sum. -/
def countdown : Routine where
  frame := ⟨.named "countdown", 1, 0, 0, 0, 1⟩
  entry := .fresh 0
  exit := .fresh 1
  instrs := .label (.fresh 0) :: additionLoop

theorem countdown_allocated : ∃ a s', Gives (countdown.allocate 2) ⟨4, 4⟩ a s' := by
  have h : (outcome (countdown.allocate 2) ⟨4, 4⟩).1.toOption.isSome = true := by decide +kernel
  unfold Gives
  revert h
  rcases outcome (countdown.allocate 2) ⟨4, 4⟩ with ⟨_ | a, s'⟩
  · exact fun h => absurd h (by simp [Except.toOption])
  · exact fun _ => ⟨a, s', rfl⟩

theorem countdown_in_registers : ∃ a s' regs, Gives (countdown.allocate 2) ⟨4, 4⟩ a s' ∧
    a.routine.registers = some regs ∧
    (∀ i ∈ a.routine.instrs, ∀ t, t ∈ i.uses ∨ t ∈ i.defs → t ≠ 0 → ∃ n < 2, regs[t]? = some n) ∧
    ∀ (m : Meaning Nat Nat) n c', run m a.routine.instrs n (.entry (fun _ => 0) 0) = some c' →
      ∃ d', run m (a.routine.instrs.map (Instr.place (regs.place 0))) n (.entry (fun _ => 0) 0) =
        some d' ∧ Held a.liveness (regs.place 0) c' d' := by
  obtain ⟨a, s', h⟩ := countdown_allocated
  obtain ⟨regs, hregs, hlt, hrun⟩ := allocate_preserves_execution (by decide) h
  exact ⟨a, s', regs, h, hregs, hlt, fun m =>
    hrun Nat Nat m (.entry (fun _ => 0) 0) (.entry (fun _ => 0) 0) ⟨rfl, rfl, rfl, fun _ _ => rfl⟩⟩

end MmixCompiler
