import MmixCompiler.Proofs.Frame.Passing
import MmixCompiler.Proofs.Mmix.Activation
import MmixCompiler.Proofs.Mmix.Assigning

/-! The whole frame of a function. Its parameters and the static link are above the frame pointer. Below are its locals,
the saved words, the slots of spilled temporaries and the area for arguments. These follow each other without gaps. -/

namespace MmixCompiler

open Mmix Fresh

namespace Routine

variable (r : Routine)

/-- The slots of spilled temporaries, in the order in which they moved to the frame. -/
def slotRegions : List Region :=
  (List.range (r.spilled / Word.size).toNat).map fun k : Nat =>
    .word (-(r.frame.locals + Frame.overhead) - Word.size * (k + 1))

/-- What is below the frame pointer, from the top down. -/
def inner (locals : List Region) : List Region :=
  locals ++ [r.savedPointer, r.savedAddress] ++ r.slotRegions ++ [r.outgoing]

/-- The whole frame, from the last parameter down. -/
def regions (params : Nat) (locals : List Region) : List Region :=
  (Region.params params).reverse ++ [.link] ++ r.inner locals

end Routine

/-- The frame of a function, with its locals in the given regions. -/
structure Routine.Arranged (r : Routine) (l : Layout) (d : Decl) (gs : List Region) : Prop where
  params : List.Forall₂ (l.Puts r.frame.depth) d.params (Region.params d.params.length)
  locals : List.Forall₂ (l.Puts r.frame.depth) d.locals gs
  localsFill : ∀ i, (∃ g ∈ gs, i ∈ g) ↔ -r.frame.locals ≤ i ∧ i < 0
  spilled : r.spilled = Word.size * r.slotRegions.length
  apart : (r.regions d.params.length gs).Pairwise Region.Apart
  /-- What is below the frame pointer fills what the prologue takes from the stack. -/
  innerFills : ∀ i, (∃ g ∈ r.inner gs, i ∈ g) ↔ r.outgoing.offset ≤ i ∧ i < 0
  /-- Nothing overlaps in memory either, if there is room for the frame. -/
  octabytes : r.stackBytes + Word.size * (d.params.length + 1) ≤ 2 ^ 64 → ∀ fp : Octa,
    (r.regions d.params.length gs).Pairwise fun g h => List.Disjoint (g.octabytes fp) (h.octabytes fp)

section
variable {r : Routine} {gs : List Region}

theorem Routine.tiles_slotRegions (h : r.spilled = Word.size * r.slotRegions.length) :
    Region.Tiles r.savedAddress.offset (-r.stackBytes + r.frame.args) r.slotRegions := by
  have hwords := Region.Tiles.words (-(r.frame.locals + Frame.overhead)) (r.spilled / Word.size).toNat
  have hcount : r.slotRegions.length = (r.spilled / Word.size).toNat := by simp [slotRegions]
  rw [hcount] at h
  have htop : -(r.frame.locals + Frame.overhead) = r.savedAddress.offset := by
    simp only [savedAddress, Region.offset_word, Frame.overhead]
    omega
  have hbottom : -(r.frame.locals + Frame.overhead) - Word.size * (r.spilled / Word.size).toNat =
      -r.stackBytes + r.frame.args := by
    rw [← h, stackBytes, Frame.size]
    omega
  rw [hbottom] at hwords
  exact htop ▸ hwords

theorem Routine.tiles_inner (hgs : Region.Tiles 0 (-r.frame.locals) gs) (hargs : 0 ≤ r.frame.args)
    (hspilled : r.spilled = Word.size * r.slotRegions.length) :
    Region.Tiles 0 r.outgoing.offset (r.inner gs) := by
  have hsaved : Region.Tiles (-r.frame.locals) r.savedAddress.offset [r.savedPointer, r.savedAddress] := by
    refine .cons (by simp [savedPointer]) ?_ (.cons (by simp [savedAddress]) ?_ (.nil _))
    · simp [savedPointer, Word.size]
    · simp only [savedPointer, savedAddress, Region.offset_word, Region.size_word, Word.size]
      omega
  exact ((hgs.append hsaved).append (tiles_slotRegions hspilled)).append (.cons hargs rfl (.nil _))

theorem Routine.dvd_size_regions {n : Nat} (hsizes : ∀ g ∈ gs, Word.size ∣ g.size) (hdvd : Word.size ∣ r.frame.args)
    {g : Region} (hg : g ∈ r.regions n gs) : Word.size ∣ g.size := by
  have hword : ∀ i, Word.size ∣ (Region.word i).size := fun i => Int.dvd_refl _
  simp only [regions, inner, Region.params, slotRegions, List.mem_append, List.mem_reverse, List.mem_map, List.mem_cons,
    List.not_mem_nil, or_false] at hg
  rcases hg with (⟨k, -, rfl⟩ | rfl) | ((hg | rfl | rfl) | ⟨k, -, rfl⟩) | rfl
  · exact hword _
  · exact hword _
  · exact hsizes g hg
  · exact hword _
  · exact hword _
  · exact hword _
  · exact hdvd

theorem Routine.arranged {l : Layout} {d : Decl}
    (hparams : List.Forall₂ (l.Puts r.frame.depth) d.params (Region.params d.params.length))
    (hlocals : List.Forall₂ (l.Puts r.frame.depth) d.locals gs) (hgs : Region.Tiles 0 (-r.frame.locals) gs)
    (hsizes : ∀ g ∈ gs, Word.size ∣ g.size) (hargs : 0 ≤ r.frame.args) (hdvd : Word.size ∣ r.frame.args)
    (hspilled : r.spilled = Word.size * r.slotRegions.length) : r.Arranged l d gs := by
  have hinner := tiles_inner hgs hargs hspilled
  have hall : Region.Tiles (Word.size * (d.params.length + 1)) r.outgoing.offset (r.regions d.params.length gs) :=
    (Region.tiles_params d.params.length).append hinner
  refine ⟨hparams, hlocals, fun i => hgs.exists_mem_iff, hspilled, hall.pairwise_apart, fun i => hinner.exists_mem_iff,
    fun hsmall fp => hall.pairwise_octabytes (Int.dvd_mul_right ..) (fun g hg => ?_) ?_ fp⟩
  · exact dvd_size_regions hsizes hdvd hg
  · rw [outgoing, Int.sub_neg, Int.add_comm]
    exact hsmall

end

/-- Code in which temporaries have moved to words of the frame, one after the other. -/
inductive MovesTo (fp : Temp) : List Instr → List Region → List Instr → Prop where
  | nil (code : List Instr) : MovesTo fp code [] code
  | cons {code code' : List Instr} {blocks : List (List Instr)} {low high : Nat} {g : Region} {gs : List Region}
      (t : Temp) (hfp : fp < low) (h : List.Forall₂ (Block t fp (-g.offset) low high) code blocks)
      (hrest : MovesTo fp blocks.flatten gs code') : MovesTo fp code (g :: gs) code'

/-- Fetching a word from there reads the octabyte where the region begins, and storing one there writes it. -/
def Region.Reached (g : Region) (fp : Temp) : Prop :=
  ∀ (new a : Temp) (w : World) (c : Core), fp ≠ a → new ≠ a →
    (∃ c', execAll w (fetch new a fp (-g.offset)) c = some c' ∧
      c'.regs (.temp new) = c.mem (g.first (c.regs (.temp fp))) ∧ c'.mem = c.mem) ∧
    ∃ c', execAll w (keep new a fp (-g.offset)) c = some c' ∧
      c'.mem = c.mem.set (g.first (c.regs (.temp fp))) (c.regs (.temp new))

theorem Region.reached (g : Region) (fp : Temp) : g.Reached fp := by
  intro new a w c hfp hnew
  have haddress : c.regs (.temp fp) - BitVec.ofInt 64 (-g.offset) = c.regs (.temp fp) + .ofInt 64 g.offset := by
    rw [BitVec.ofInt_neg, BitVec.sub_eq_add_neg, BitVec.neg_neg]
  have hslot : execAll w (slotOps a fp (-g.offset)) c =
      some (c.set (.temp a) (c.regs (.temp fp) + .ofInt 64 g.offset)) := by
    refine execAll_of_compute (fun op hop => ?_) ((compute_slotOps hfp _).trans (by rw [haddress]))
    rcases List.mem_append.mp hop with hop | hop
    · obtain ⟨n, -, rfl⟩ | ⟨part, n, -, rfl⟩ | rfl := loadConst_cases hop <;> rfl
    · obtain rfl := List.mem_singleton.mp hop
      rfl
  constructor
  · rw [fetch, execAll_append, hslot]
    refine ⟨_, rfl, ?_⟩
    simp [Value.word, first]
  · rw [keep, execAll_append, hslot]
    refine ⟨_, rfl, ?_⟩
    simp [Value.word, first, hnew]

section
variable {r r' : Routine} {s s' : Supply} {ts : List Temp}

theorem Spills.movesTo (h : Spills r s ts r' s') (hr : r.Below s) : MovesTo r.frame.fp r.instrs
    ((List.range ts.length).map fun k : Nat => .word (-r.lastSlot - Word.size * (k + 1))) r'.instrs := by
  induction h with
  | nil r s => exact .nil _
  | @cons r r₁ r' s s₁ s' t ts ht hfp h hrest ih =>
    have hrest := ih (hr.spill h)
    obtain ⟨-, blocks, hblocks, rfl⟩ := Routine.blocks_of_spill h
    have hfirst : r.lastSlot + 8 = -(Region.word (-r.lastSlot - Word.size * ((0 : Nat) + 1))).offset := by
      simp only [Region.offset_word, Word.size]
      omega
    have hnext : ∀ k : Nat, -Routine.lastSlot { r with spilled := r.spilled + 8, instrs := blocks.flatten } -
        Word.size * (k + 1) = -r.lastSlot - Word.size * ((k + 1 : Nat) + 1) := fun k => by
      simp only [Routine.lastSlot, Word.size]
      omega
    rw [List.length_cons, List.range_succ_eq_map, List.map_cons, List.map_map]
    rw [hfirst] at hblocks
    simp only [hnext] at hrest
    exact .cons t hr.1 hblocks hrest

/-- A routine made of a chunk, with a slot for each temporary that allocation moved to the frame. -/
structure CodeChunk.SpillsTo (registers : Nat) (chunk : CodeChunk) (a : Routine.Allocated) : Prop where
  frame : a.routine.frame = chunk.frame
  spilled : a.routine.spilled = Word.size * a.routine.slotRegions.length
  moves : ∃ s r s₁ s₂, Gives (chunk.select registers) s r s₁ ∧ Gives (r.allocate registers) s₁ a s₂ ∧
    MovesTo chunk.frame.fp r.instrs a.routine.slotRegions a.routine.instrs

theorem CodeChunk.Fit.spillsTo {chunk : CodeChunk} {registers : Nat} {a : Routine.Allocated} (h : chunk.Fit s)
    (ha : chunk.BecomesFrom registers s a s') : s.temps ≤ s'.temps ∧ chunk.SpillsTo registers a := by
  obtain ⟨r, s₁, hr, ha⟩ := ha
  obtain ⟨_, _, hr', hrfit, hchunk, hspilled, hle⟩ := h.exists_routine registers
  obtain ⟨rfl, rfl⟩ := hr.det hr'
  obtain ⟨ts, r', hrounds, heq⟩ := spillRounds_of_rounds ha
  obtain ⟨hspills, -⟩ := hrounds.spills hrfit.below
  have hframe : a.routine.frame = r.frame := by
    rw [heq]
    exact hspills.frame_eq
  have hbytes : a.routine.spilled = Word.size * ts.length := by
    rw [heq, Word.size, ← Int.zero_add (8 * _), ← hspilled]
    exact hspills.spilled_eq
  have hslots : a.routine.slotRegions =
      (List.range ts.length).map fun k : Nat => .word (-r.lastSlot - Word.size * (k + 1)) := by
    have hcount : (a.routine.spilled / Word.size).toNat = ts.length := by
      rw [hbytes, Word.size]
      omega
    rw [Routine.slotRegions, hcount, hframe, Routine.lastSlot, hspilled, Int.add_zero]
  refine ⟨Nat.le_trans hle (hrfit.complete ha).1, hframe.trans hchunk, by simp [hslots, hbytes], s, r, s₁,
    s', hr, ha, ?_⟩
  rw [hslots, heq, ← hchunk]
  exact hspills.movesTo hrfit.below

end

/-- A function and the routine made of it, with its frame. -/
structure Lowering.Arranges (x : Lowering) (registers : Nat) (d : Decl × MmixCompiler.Expr) (a : Routine.Allocated) :
    Prop where
  frame : x.planner.layout.frames[d.1.id]? = some a.routine.frame
  arranged : ∃ gs, a.routine.Arranged x.planner.layout d.1 gs
  /-- Its locals are the variables that stand in it and in no function within it. -/
  locals : d.1.locals.Nodup ∧ ∀ φ v, (φ, .decl d.1) ∈ x.program.nests →
    (v ∈ d.1.locals ↔ v.HasRole .variable ∧ (d.1 :: φ, .decl v) ∈ x.program.nests)
  spills : ∃ s chunk s', x.Makes d s chunk s' ∧ chunk.SpillsTo registers a
  slots : ∀ g ∈ a.routine.slotRegions, g.Reached a.routine.frame.fp
  links : a.routine.Links registers

theorem Lowering.Makes.arranges {x : Lowering} {src : String} {registers : Nat} {d : Decl × MmixCompiler.Expr}
    {s s' : Supply} {chunk : CodeChunk} {a : Routine.Allocated} (hx : x.Of src) (hd : d ∈ x.program.bodies)
    (h : x.Makes d s chunk s') (ha : chunk.SpillsTo registers a) : x.Arranges registers d a := by
  have hframe : x.planner.layout.frames[d.1.id]? = some a.routine.frame := ha.frame ▸ h.frame
  obtain ⟨φ, e, hid, hrecords⟩ := (hx.analyzed.planned hx.layout).frames _ _ hframe
  obtain ⟨hhas, -⟩ := Program.mem_bodies.mp hd
  obtain rfl : e = d.1 := Node.decl.inj (hx.formed.numbered.eq_of_id hrecords.code.has hhas hid)
  refine ⟨hframe, ?_, ⟨?_, fun ψ v hnest => ?_⟩, ⟨s, chunk, s', h, ha⟩, fun g _ => g.reached _,
    a.routine.links registers⟩
  · obtain ⟨gs, hputs, htiles, hsizes⟩ := hrecords.locals hx.analyzed
    have hargs : a.routine.frame.args = Word.size * (largest (Node.expr d.2).arities : Nat) := by
      rw [ha.frame]
      exact h.args_eq hx hd
    refine ⟨gs, Routine.arranged (hrecords.params hx.analyzed) hputs htiles hsizes ?_ ?_ ha.spilled⟩
    · rw [hargs, Word.size]
      omega
    · rw [hargs]
      exact Int.dvd_mul_right ..
  · have hnodup := hx.formed.numbered.nodup_variables hhas
    rw [List.map_append] at hnodup
    exact hnodup.of_append_left.of_map _
  · obtain ⟨rfl, -⟩ := hx.formed.numbered.nest_unique hnest hrecords.nest rfl
    exact hx.analyzed.mem_locals_iff hnest hrecords.code

/-- In a program that compiles, the parts of a function's frame do not overlap, and those below the frame pointer fill
what the prologue takes from the stack, whatever was spilled. A call passes its arguments in the words where the
function that it calls has its parameters. -/
theorem frame_parts_apart_and_agreed (src : String) (registers : Nat) (c : Compilation)
    (hc : (compile src registers).1 = .ok c) :
    ∃ x : Stages, x.Of src registers c ∧ List.Forall₂ (x.lowering.Arranges registers) x.program.bodies x.routines ∧
      ∀ f φ mark name args, (f :: φ, .expr (.call mark name args)) ∈ x.program.nests →
        x.lowering.Passes f mark args := by
  obtain ⟨x, hx, s', hthread⟩ := exists_stages hc
  refine ⟨x, hx, ?_, fun f φ mark name args hcall => hx.lowering.passes hcall⟩
  have hchunks : Threaded (fun d s chunk s' => d ∈ x.program.bodies ∧ x.lowering.Makes d s chunk s')
      x.program.bodies x.generator.supply x.chunks.code x.supply :=
    (hx.lowering.threaded.imp (I := fun _ => True) trivial fun d hd _ _ _ _ hmakes => ⟨trivial, hd, hmakes⟩).1
  -- The supply of a routine is above all temporaries of the chunks.
  have hroutines : Threaded (fun chunk _ a _ => chunk.SpillsTo registers a) x.chunks.code x.supply x.routines s' := by
    refine (hthread.imp (I := fun s => x.supply.temps ≤ s.temps) (Nat.le_refl _) ?_).1
    intro chunk hchunk s a s₂ hs ha
    obtain ⟨-, hfit⟩ := hx.lowering.begins hchunk
    obtain ⟨hle, hspills⟩ := (hfit.mono hs).spillsTo ha
    exact ⟨Nat.le_trans hs hle, hspills⟩
  refine (forall₂_comp hchunks.related hroutines.related).imp fun d a h => ?_
  obtain ⟨chunk, ⟨s₁, s₂, hd, hmakes⟩, _, _, hspills⟩ := h
  exact hmakes.arranges hx.lowering hd hspills

theorem nestedFunctions_arranges : ∃ (c : Compilation) (x : Stages), (compile nestedFunctions 2).1 = .ok c ∧
    x.Of nestedFunctions 2 c ∧ x.routines.length = 2 ∧
      List.Forall₂ (x.lowering.Arranges 2) x.program.bodies x.routines ∧
        ∃ f φ mark name args, (f :: φ, .expr (.call mark name args)) ∈ x.program.nests ∧
          x.lowering.Passes f mark args := by
  have hcalls : (Program.parse nestedFunctions).1.toOption.map
      (fun p => p.nests.any fun q => !q.1.isEmpty && decide (q.2.use? = some ("twice", .function))) = some true := by
    unfold nestedFunctions
    rw [← String.ofList_append, Program.parse_ofList]
    decide +kernel
  obtain ⟨c, hc⟩ := exists_compile_nestedFunctions
  obtain ⟨x, hx, hroutines, hpasses⟩ := frame_parts_apart_and_agreed nestedFunctions 2 c hc
  refine ⟨c, x, hc, hx, ?_, hroutines, ?_⟩
  · rw [← hx.routines.length_eq]
    exact hx.lowering.length_nestedFunctions
  · rw [hx.parse] at hcalls
    obtain ⟨⟨ψ, n⟩, hn, hcall⟩ := List.any_eq_true.mp (Option.some.inj hcalls)
    obtain ⟨hin, huse⟩ := Bool.and_eq_true_iff.mp hcall
    rw [decide_eq_true_eq] at huse
    cases ψ with
    | nil => cases hin
    | cons f φ =>
      cases n with
      | expr e =>
        cases e with
        | call mark name args => exact ⟨f, φ, mark, name, args, hn, hpasses f φ mark name args hn⟩
        | _ => cases huse
      | type t => cases t <;> cases huse
      | _ => cases huse

end MmixCompiler
