import MmixCompiler.Proofs.Mmix.Routines
import MmixCompiler.Proofs.Register.Forest

/-! Routines that are chosen for chunks, after all their temporaries have moved to the frame. -/

namespace MmixCompiler

open Mmix Fresh

/-- An operation that reads two temporaries at most and writes one, or none if it may jump. -/
def Mmix.Oper.Narrow (o : Oper) : Prop :=
  o.uses.length ≤ 2 ∧ o.defs.length ≤ 1 ∧ (o.jumps ≠ [] → o.defs = [])

section
variable {kept : Nat} {s s' : Supply}

theorem Mmix.Op.Serves.narrow {reads writes : List Temp} {labels gotos : List Label} {op : Op}
    (h : op.Serves reads writes labels gotos s s') : op.oper.Narrow := by
  cases h with
  | @update t _ huses hdefs hjumps =>
    have hwidth : op.uses.length ≤ 2 ∧ op.defs.length ≤ 1 := by simp [huses, hdefs]
    exact ⟨hwidth.1, hwidth.2, fun hne => absurd hjumps hne⟩
  | write us _ huses hdefs hjumps hlength =>
    subst huses
    exact ⟨hlength, Nat.le_of_eq (congrArg List.length hdefs), fun hne => absurd hjumps hne⟩
  | read us huses hdefs _ hlength =>
    subst huses
    exact ⟨hlength, Nat.le_trans (Nat.le_of_eq (congrArg List.length hdefs)) (Nat.zero_le 1), fun _ => hdefs⟩

theorem CodeChunk.narrow_of_select {c : CodeChunk} {r : Routine} (h : Gives (c.select kept) s r s') :
    ∀ o, .oper o ∈ r.instrs → o.Narrow := by
  simp only [CodeChunk.select, Ir.Stmt.selectAll, gives_bind, gives_pure] at h
  obtain ⟨_, _, ⟨blocks, s₁, hblocks, rfl, rfl⟩, rfl, rfl⟩ := h
  intro o ho
  obtain ⟨line, hline, heq⟩ := List.mem_map.mp ho
  obtain ⟨block, hblock, hline⟩ := List.mem_flatten.mp hline
  obtain ⟨st, -, s₂, s₃, -, hchosen⟩ := exists_left_of_forall₂ (chosen_of_mapM hblocks (Nat.zero_le _)) hblock
  cases line with
  | label l => cases heq
  | op op =>
    cases heq
    exact (hchosen.serves hline).narrow

end

section
variable {r r' : Routine} {s s' : Supply} {ts : List Temp}

theorem Routine.exists_spillAll (r : Routine) (ts : List Temp) (s : Supply) :
    ∃ r' events s', Gives (r.spillAll ts) s (r', events) s' := by
  induction ts generalizing r s with
  | nil => exact ⟨r, [], s, gives_pure.mpr ⟨rfl, rfl⟩⟩
  | cons t ts ih =>
    obtain ⟨r₁, s₁, hspill⟩ := r.exists_spill t s
    obtain ⟨r', events, s', hgives⟩ := ih r₁ s₁
    refine ⟨r', .spill t r₁.lastSlot :: events, s', ?_⟩
    simp only [Routine.spillAll, gives_bind, gives_pure]
    exact ⟨r₁, s₁, hspill, (r', events), s', hgives, rfl, rfl⟩

theorem Spills.labelled (h : Spills r s ts r' s') (hr : Labelled r.instrs) : Labelled r'.instrs := by
  induction h with
  | nil => exact hr
  | cons _ _ hspill _ ih => exact ih (hr.spill hspill)

/-- When all temporaries have moved, only those are left that came about by it. -/
theorem Spills.lt_or_eq (h : Spills r s ts r' s') (hall : ∀ i ∈ r.instrs, ∀ t ∈ i.temps, t ≠ r.frame.fp → t ∈ ts)
    {i : Instr} (hi : i ∈ r'.instrs) {t : Temp} (ht : t ∈ i.temps) (hlt : t < s.temps) : t = r.frame.fp := by
  by_contra hne
  by_cases hmem : ∃ i ∈ r.instrs, t ∈ i.temps
  · obtain ⟨i₀, hi₀, ht₀⟩ := hmem
    exact h.notMem_of_mem (hall i₀ hi₀ t ht₀ hne) i hi ht
  · exact h.notMem_temps hlt hne (fun i₀ hi₀ ht₀ => hmem ⟨i₀, hi₀, ht₀⟩) i hi ht

theorem Spills.oneOlder (h : Spills r s ts r' s') (hbelow : r.Below s) (hnarrow : ∀ o, .oper o ∈ r.instrs → o.Narrow)
    (hall : ∀ i ∈ r.instrs, ∀ t ∈ i.temps, t ≠ r.frame.fp → t ∈ ts) (hts : ∀ t ∈ ts, t < s.temps) {live : Liveness}
    (hsolves : live.Solves r'.instrs) : (Interference.ofCode r'.instrs live r.frame.fp).OneOlder := by
  obtain ⟨xs, hxs⟩ := exists_woven (fun o ho => ⟨(hnarrow o ho).1, (hnarrow o ho).2.1⟩) hbelow.2
  obtain ⟨xs', hxs'⟩ := hxs.spills h hts (Nat.le_refl _) hbelow.1
  exact hxs'.oneOlder (fun i hi t ht hlt => h.lt_or_eq hall hi ht hlt) hsolves

end

/-- Once all temporaries of a chosen routine have moved to the frame, in whatever order, interference is a forest, and
any two registers do. -/
theorem graph_isAcyclic_of_spillAll {c : CodeChunk} {kept : Nat} {s s₁ s₂ : Supply} {r : Routine} {ts : List Temp}
    (hselect : Gives (c.select kept) s r s₁) (hbelow : r.Below s₂)
    (hts : ∀ t, t ∈ ts ↔ t ≠ r.frame.fp ∧ ∃ i ∈ r.instrs, t ∈ i.temps) :
    (∀ o, .oper o ∈ r.instrs → o.uses.length ≤ 2 ∧ o.defs.length ≤ 1 ∧ (o.jumps ≠ [] → o.defs = [])) ∧
    ∃ r' events s₃, Gives (r.spillAll ts) s₂ (r', events) s₃ ∧
      ((∃ p, liveness r.instrs = .ok p) → ∃ p, liveness r'.instrs = .ok p) ∧
      ∀ live passes, liveness r'.instrs = .ok (live, passes) →
        (Interference.ofCode r'.instrs live r'.frame.fp).graph.IsAcyclic ∧
        ∀ registers, 2 ≤ registers → ∃ colors,
          ((Interference.ofCode r'.instrs live r'.frame.fp).color registers).registers? = some colors := by
  have hnarrow : ∀ o, .oper o ∈ r.instrs → o.Narrow := CodeChunk.narrow_of_select hselect
  obtain ⟨r', events, s₃, hgives⟩ := r.exists_spillAll ts s₂
  have hlt : ∀ t ∈ ts, t < s₂.temps ∧ t ≠ r.frame.fp := fun t ht => by
    obtain ⟨hne, i, hi, hmem⟩ := (hts t).mp ht
    exact ⟨hbelow.2 i hi t hmem, hne⟩
  have hspills := spills_of_spillAll hgives hlt
  refine ⟨hnarrow, r', events, s₃, hgives, fun ⟨p, hp⟩ => ?_, fun live passes hlive => ?_⟩
  · obtain ⟨live, passes, hlive⟩ := (hspills.labelled (liveness_solves hp).1).exists_liveness
    exact ⟨_, hlive⟩
  · have hsolves := (liveness_solves hlive).2
    have hproper : (Interference.ofCode r'.instrs live r'.frame.fp).Proper := Interference.proper_ofCode hsolves.sorted
    have holder : (Interference.ofCode r'.instrs live r'.frame.fp).OneOlder := by
      rw [hspills.frame_eq]
      exact hspills.oneOlder hbelow hnarrow (fun i hi t ht hne => (hts t).mpr ⟨hne, i, hi, ht⟩)
        (fun t ht => (hlt t ht).1) hsolves
    exact ⟨holder.isAcyclic hproper, fun registers hregisters =>
      hproper.exists_coloring (holder.degenerate hproper hregisters)⟩

/-- Counts down in steps: a word is updated in place, and the loop goes on until it is zero. -/
def stepping : CodeChunk where
  frame := ⟨.named "stepping", 1, 0, 0, 0, 1⟩
  stmts := [.label (.fresh 0), .move (.temp 2) (.binop .sub (.temp 2) (.temp 3)),
    .branch (.temp 2) (.fresh 0) (.fresh 1), .label (.fresh 1)]
  entry := .fresh 0
  exit := .fresh 1

def steppingRoutine : Routine where
  frame := stepping.frame
  entry := stepping.entry
  exit := stepping.exit
  instrs := [.label (.fresh 0), (Op.alu .sub (.temp 2) (.temp 2) (.reg (.temp 3))).instr,
    (Op.branch (.temp 2) (.fresh 0) (.fresh 1)).instr, .label (.fresh 1)]

theorem stepping_colored : Gives (stepping.select 2) ⟨4, 2⟩ steppingRoutine ⟨4, 2⟩ ∧
    (∃ p, liveness steppingRoutine.instrs = .ok p) ∧
    ∃ r' events s live passes, Gives (steppingRoutine.spillAll [3, 2]) ⟨4, 2⟩ (r', events) s ∧
      liveness r'.instrs = .ok (live, passes) ∧
      (Interference.ofCode r'.instrs live r'.frame.fp).graph.IsAcyclic ∧
      ∃ colors, ((Interference.ofCode r'.instrs live r'.frame.fp).color 2).registers? = some colors := by
  have hselect : Gives (stepping.select 2) ⟨4, 2⟩ steppingRoutine ⟨4, 2⟩ := rfl
  have hlive : ∃ p, liveness steppingRoutine.instrs = .ok p := ⟨_, rfl⟩
  have htemps : ∀ t, (∃ i ∈ steppingRoutine.instrs, t ∈ i.temps) ↔ t = 2 ∨ t = 3 := by
    simp [steppingRoutine, Instr.temps, Instr.uses, Instr.defs, Op.instr, Op.uses, Op.defs, Op.args, Op.Arg.ofValue,
      Reg.temp?]
  have hfp : steppingRoutine.frame.fp = 0 := rfl
  have hbelow : steppingRoutine.Below ⟨4, 2⟩ := ⟨by decide, fun i hi t ht => by
    rcases (htemps t).mp ⟨i, hi, ht⟩ with rfl | rfl <;> decide⟩
  have hts : ∀ t, t ∈ [3, 2] ↔ t ≠ steppingRoutine.frame.fp ∧ ∃ i ∈ steppingRoutine.instrs, t ∈ i.temps := fun t => by
    rw [htemps, hfp]
    simp only [List.mem_cons, List.not_mem_nil, or_false]
    refine ⟨?_, fun h => h.2.symm⟩
    rintro (rfl | rfl) <;> decide
  obtain ⟨-, r', events, s, hgives, hok, hforest⟩ := graph_isAcyclic_of_spillAll hselect hbelow hts
  obtain ⟨⟨live, passes⟩, hlive'⟩ := hok hlive
  obtain ⟨hacyclic, hcolors⟩ := hforest live passes hlive'
  exact ⟨hselect, hlive, r', events, s, live, passes, hgives, hlive', hacyclic, hcolors 2 (Nat.le_refl 2)⟩

end MmixCompiler
