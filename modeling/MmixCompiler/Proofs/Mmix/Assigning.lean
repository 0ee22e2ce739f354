import MmixCompiler.Proofs.Ir.Assigning
import MmixCompiler.Proofs.Lowering

/-! The operations chosen for canonical code write their temporaries before they read them, and never
write the frame pointer. So exactly the frame pointer is live where a function begins. -/

namespace MmixCompiler

open Mmix Fresh

section
variable {w : Written} {known out : Set Temp} {dst : Temp} {kept : Nat} {s s' : Supply} {ops : List Op}

theorem assigns_storeArg {arg : Temp} {offset : Nat} (harg : arg ∈ known) (h : Gives (storeArg arg offset) s ops s') :
    Assigns w known (ops.map Op.instr) known := by
  obtain ⟨-, rfl, -⟩ | ⟨rfl, -⟩ := storeArg_cases h
  · refine assigns_op rfl ?_ Set.subset_union_left
    simpa [Op.uses, Op.args, Op.Arg.ofValue, Reg.temp?, Reg.sp] using harg
  · rw [List.map_append]
    refine assigns_loadConst.append (assigns_op rfl ?_ ?_)
    · simpa [Op.uses, Op.args, Op.Arg.ofValue, Reg.temp?, Reg.sp] using .inr harg
    · exact Set.subset_union_left.trans Set.subset_union_left

theorem assigns_storeArgs {ts : List Temp} {i : Nat} (hts : ∀ t ∈ ts, t ∈ known)
    (h : Gives (Ir.Expr.storeArgs i (ts.map .temp)) s ops s') : Assigns w known (ops.map Op.instr) known := by
  induction ts generalizing i s ops with
  | nil =>
    obtain ⟨rfl, -⟩ := gives_pure.mp h
    exact Set.Subset.rfl
  | cons t ts ih =>
    obtain ⟨u, first, s₁, rest, heq, hfirst, hrest, rfl⟩ := gives_storeArgs_cons.mp h
    cases heq
    obtain ⟨ht, hts⟩ := List.forall_mem_cons.mp hts
    rw [List.map_append]
    exact (assigns_storeArg ht hfirst).append (ih hts hrest)

theorem assigns_computed {e : Ir.Expr} (he : e.Operation) (htemps : ∀ u ∈ e.temps, u ∈ known)
    (h : Computed kept dst s e ops s') : Assigns w known (ops.map Op.instr) (known ∪ {dst}) := by
  -- One operation that reads some of the temporaries and writes the result.
  have hone : ∀ op : Op, op.jumps = [] → op.uses ⊆ e.temps → op.defs = [dst] →
      Assigns w known [op.instr] (known ∪ {dst}) := by
    intro op hjumps huses hdefs
    refine assigns_op hjumps (fun u hu => htemps u (huses hu)) ?_
    simp [Assigns, hdefs]
  cases h with
  | const => exact assigns_loadConst
  | binop op l r =>
    have hfirst := hone (.alu (aluOf op) (.temp dst) (.temp l) (.reg (.temp r))) rfl
      (by simp [Op.uses, Op.args, Op.Arg.ofValue, Reg.temp?, Ir.Expr.temps]) rfl
    have hfinish : Assigns w (known ∪ {dst}) ((finish (.temp dst) op).map Op.instr) (known ∪ {dst}) := by
      cases op <;> simp [finish, Assigns, Op.instr, Op.oper, Op.uses, Op.defs, Op.jumps, Op.args, Reg.temp?]
    exact hfirst.append hfinish
  | call label hstores =>
    obtain ⟨ts, rfl⟩ := exists_temps_of_operands he
    rw [Ir.Expr.temps, tempsAll_map_temp] at htemps
    rw [List.map_append]
    refine (assigns_storeArgs htemps hstores).append (assigns_op rfl (by simp [Op.uses, Op.args]) ?_)
    refine Assigns.mono (hone _ rfl (by simp [Op.uses, Op.args, Op.Arg.ofValue, Reg.temp?,
      Reg.sp]) rfl) ?_ Set.Subset.rfl
    exact Set.subset_union_left
  | _ => exact hone _ rfl (by simp [Op.uses, Op.args, Op.Arg.ofValue, Reg.temp?, Ir.Expr.temps]) rfl

end

section
variable {w : Written} {known out : Set Temp} {kept : Nat} {s s' : Supply} {st : Ir.Stmt} {block : List Line}

theorem Chosen.assigns (h : Chosen kept s s' st block) (hst : st.Canonical) (ha : Assigns w known [st.outline] out) :
    Assigns w known (block.map Line.instr) out := by
  cases h with
  | label => exact ha
  | jump => exact ha
  | branch =>
    obtain ⟨huses, hjumps, hout⟩ := ha
    refine ⟨huses, fun l hl => hjumps l ?_, hout⟩
    simpa [Op.jumps, Ir.Stmt.gotos, or_comm] using hl
  | compute h =>
    obtain ⟨huses, -, hout⟩ := ha
    have hdefs : ∀ t : Temp, {u | u ∈ [t]} = {t} := fun t => by simp
    rw [List.map_map]
    refine (assigns_computed hst huses h).mono Set.Subset.rfl ?_
    rw [← hdefs]
    exact hout
  | store =>
    obtain ⟨huses, -, hout⟩ := ha
    refine ⟨fun u hu => huses u ?_, by simp [Op.jumps], hout⟩
    simpa [Op.uses, Op.args, Op.Arg.ofValue, Reg.temp?, Ir.Stmt.temps, Ir.Expr.temps, or_comm] using hu

theorem Assigns.split {i : Instr} {code : List Instr} (h : Assigns w known (i :: code) out) :
    ∃ mid, Assigns w known [i] mid ∧ Assigns w mid code out := by
  cases i with
  | label l =>
    obtain ⟨there, hmem, hthere, hcode⟩ := h
    exact ⟨there, ⟨there, hmem, hthere, Set.Subset.rfl⟩, hcode⟩
  | oper o => exact ⟨_, ⟨h.1, h.2.1, Set.Subset.rfl⟩, h.2.2⟩

theorem assigns_chosen {stmts : List Ir.Stmt} {blocks : List (List Line)} (hforms : ∀ st ∈ stmts, st.Canonical)
    (h : List.Forall₂ (fun st block => ∃ s s', Chosen kept s s' st block) stmts blocks)
    (ha : Assigns w known (stmts.map Ir.Stmt.outline) out) :
    Assigns w known (blocks.flatten.map Line.instr) out := by
  induction h generalizing known with
  | nil => exact ha
  | cons hblock _ ih =>
    obtain ⟨s₁, s₂, hblock⟩ := hblock
    obtain ⟨hst, hforms⟩ := List.forall_mem_cons.mp hforms
    obtain ⟨mid, hfirst, hrest⟩ := ha.split
    rw [List.flatten_cons, List.map_append]
    exact (hblock.assigns hst hfirst).append (ih hforms hrest)

end

section
variable {f : Frame} {body : Ir.Expr} {s s' : Supply} {chunk : CodeChunk}

/-- A chunk, with only the frame pointer written where it begins. -/
structure CodeChunk.Begins (c : CodeChunk) : Prop where
  assigns : ∃ w out, w.map Prod.fst = Ir.labelsOf c.stmts ∧ (∀ e ∈ w, c.frame.fp ∈ e.2) ∧
    Assigns w {c.frame.fp} (c.stmts.map Ir.Stmt.outline) out
  store : .move (.mem (.temp c.frame.fp)) (.temp c.frame.rv) ∈ c.stmts

theorem Frame.Takes.begins (h : f.Takes body s) (hc : Gives (f.chunk body) s chunk s') : chunk.Begins := by
  obtain ⟨code, last, hbody, rfl⟩ := gives_chunk.mp hc
  obtain ⟨w, out, hlays, hlast, -⟩ :=
    (body.flattens hbody).exists_lays [] h.structured [] {f.fp} (List.forall_mem_nil _) h.temps
  have hcode := hlays.snoc (hlast last List.mem_cons_self) f.rv
  refine ⟨⟨(.fresh s.labels, {f.fp}) :: w, out ∪ {f.rv}, ?_, ?_, ?_⟩, Frame.mem_stmts.mpr (by simp)⟩
  · rw [List.map_cons, hlays.labels, Frame.labelsOf_stmts]
  · exact List.forall_mem_cons.mpr ⟨Set.mem_singleton _, fun e he => hlays.above e he (Set.mem_singleton _)⟩
  · refine ⟨_, List.mem_cons_self, Set.Subset.rfl, ?_⟩
    rw [List.map_append]
    refine (hcode.assigns _ (List.subset_cons_self ..) (List.nil_subset _)).append ⟨?_, by simp [Ir.Stmt.gotos], ?_⟩
    · have hfp : f.fp ∈ out := hlays.grows (Set.mem_singleton _)
      simp [Ir.Stmt.temps, Ir.Expr.temps, hfp]
    · exact Set.subset_union_left

variable {r : Routine} {kept : Nat}

theorem CodeChunk.Begins.starts (h : chunk.Begins) (hfit : chunk.Fit s) (hr : Gives (chunk.select kept) s r s') :
    Starts r.frame.fp r.instrs := by
  simp only [CodeChunk.select, Ir.Stmt.selectAll, gives_bind, gives_pure] at hr
  obtain ⟨_, _, ⟨blocks, _, hmap, rfl, rfl⟩, rfl, rfl⟩ := hr
  obtain ⟨-, hblocks⟩ := chosen_between hmap
  have hforms := hfit.canonical.forms
  obtain ⟨w, out, hw, hfp, hassigns⟩ := h.assigns
  refine ⟨⟨w, out, hw ▸ hfit.canonical.nodup, hfp, ?_⟩, ?_, ?_⟩
  · exact assigns_chosen hforms (hblocks.imp fun _ _ h => h.imp fun _ h => h.imp fun _ h => h.2.2) hassigns
  · obtain ⟨block, hblock, s₁, s₂, -, -, hchosen⟩ := exists_right_of_forall₂ hblocks h.store
    cases hchosen
    refine ⟨_, List.mem_map.mpr ⟨_, List.mem_flatten.mpr ⟨_, hblock, List.mem_cons_self⟩, rfl⟩, ?_⟩
    simp [Line.instr, Op.instr, Instr.uses, Op.uses, Op.args, Op.Arg.ofValue, Reg.temp?]
  · intro i hi hdefs
    obtain ⟨line, hline, rfl⟩ := List.mem_map.mp hi
    obtain ⟨block, hblock, hline⟩ := List.mem_flatten.mp hline
    obtain ⟨st, hst, s₁, s₂, hs₁, -, hchosen⟩ := exists_left_of_forall₂ hblocks hblock
    cases line with
    | label l => cases hdefs
    | op op =>
      rcases (hchosen.serves hline).mem_defs hdefs with hmem | ⟨hle, -⟩
      · -- Only moves into temporaries write one, and none of them writes the frame pointer.
        obtain ⟨e, rfl⟩ := Ir.Stmt.mem_outline_defs hmem
        exact (hfit.writes _ e hst).1 rfl
      · exact absurd (Nat.lt_of_lt_of_le hfit.fp hs₁) (Nat.not_lt.mpr hle)

/-- Where code begins exactly the frame pointer is live, and everything else is written before it is read. -/
structure Enters (fp : Temp) (code : List Instr) (live : Liveness) : Prop where
  liveness : ∃ passes, MmixCompiler.liveness code = .ok (live, passes)
  entry : live.liveIn 0 = [fp]
  written : WrittenFirst fp code

theorem Starts.enters {fp : Temp} {code : List Instr} {live : Liveness} {passes : Nat} (h : Starts fp code)
    (hlive : liveness code = .ok (live, passes)) : Enters fp code live := by
  have hsolves := (liveness_solves hlive).2
  have hentry := h.liveIn_zero hsolves
  refine ⟨⟨passes, hlive⟩, hentry, hsolves.writtenFirst fun t ht => ?_⟩
  rw [hentry] at ht
  exact List.mem_singleton.mp ht

/-- Selection and allocation both leave code that begins so. -/
theorem CodeChunk.Begins.enters (h : chunk.Begins) (hfit : chunk.Fit s) (hr : Gives (chunk.select kept) s r s') :
    r.frame = chunk.frame ∧ (∃ live, Enters r.frame.fp r.instrs live) ∧
      ∀ registers a s₂, Gives (r.allocate registers) s' a s₂ →
        s.temps ≤ s₂.temps ∧ Enters r.frame.fp a.routine.instrs a.liveness := by
  obtain ⟨r', s₁, hr', hrfit, hframe, -, hle⟩ := hfit.exists_routine kept
  obtain ⟨rfl, rfl⟩ := hr.det hr'
  have hstarts := h.starts hfit hr
  refine ⟨hframe, ?_, fun registers a s₂ ha => ⟨?_, ?_⟩⟩
  · obtain ⟨live, passes, hlive⟩ := hrfit.labelled.exists_liveness
    exact ⟨live, hstarts.enters hlive⟩
  · exact Nat.le_trans hle (hrfit.complete ha).1
  · obtain ⟨-, passes, colors, hlive, -⟩ := Routine.exists_colors_of_rounds ha
    exact (hstarts.allocate hrfit.below ha).enters hlive

end

theorem Lowering.Of.begins {x : Lowering} {src : String} (h : x.Of src) {chunk : CodeChunk}
    (hchunk : chunk ∈ x.chunks.code) :
    chunk.Begins ∧ chunk.Fit x.supply := by
  obtain ⟨-, hchunks⟩ := h.threaded.forall₂ fun _ _ _ _ h => h.fit.2
  obtain ⟨d, -, s₁, s₂, -, hs₂, hmakes⟩ := exists_left_of_forall₂ hchunks hchunk
  obtain ⟨body, -, -, htakes, hgives⟩ := hmakes.body
  exact ⟨htakes.begins hgives, hmakes.fit.1.mono hs₂.1⟩

/-- Nothing is read before it is written, on any way through the code of any function of a program that compiles. Where
a function begins, before allocation and after it, exactly the frame pointer is live, whatever has been spilled. -/
theorem frame_pointer_live_at_entry (src : String) (registers : Nat) (c : Compilation)
    (hc : (compile src registers).1 = .ok c) :
    ∃ x : Stages, x.Of src registers c ∧ List.Forall₂ (fun chunk a => ∃ s r s₁ s₂ live,
      x.supply.temps ≤ s.temps ∧ Gives (chunk.select registers) s r s₁ ∧ Gives (r.allocate registers) s₁ a s₂ ∧
        Enters chunk.frame.fp r.instrs live ∧ Enters chunk.frame.fp a.routine.instrs a.liveness)
      x.chunks.code x.routines := by
  obtain ⟨x, hx, s', hthread⟩ := exists_stages hc
  refine ⟨x, hx, ?_⟩
  -- The supply of a routine is above all temporaries of the chunks.
  have hsteps : Threaded (fun chunk s a s₂ => ∃ r s₁ live, x.supply.temps ≤ s.temps ∧
      Gives (chunk.select registers) s r s₁ ∧ Gives (r.allocate registers) s₁ a s₂ ∧
        Enters chunk.frame.fp r.instrs live ∧
        Enters chunk.frame.fp a.routine.instrs a.liveness) x.chunks.code x.supply x.routines s' := by
    refine (hthread.imp (I := fun s => x.supply.temps ≤ s.temps) (Nat.le_refl _) ?_).1
    rintro chunk hchunk s a s₂ hs ⟨r, s₁, hr, ha⟩
    obtain ⟨hbegins, hfit⟩ := hx.lowering.begins hchunk
    obtain ⟨hframe, ⟨live, hlive⟩, hallocate⟩ := hbegins.enters (hfit.mono hs) hr
    obtain ⟨hle, halive⟩ := hallocate registers a s₂ ha
    rw [hframe] at hlive halive
    exact ⟨Nat.le_trans hs hle, r, s₁, live, hs, hr, ha, hlive, halive⟩
  apply hsteps.related.imp
  rintro chunk a ⟨s, s₂, r, s₁, live, h⟩
  exact ⟨s, r, s₁, s₂, live, h⟩

theorem nestedFunctions_enters : ∃ (c : Compilation) (x : Stages), (compile nestedFunctions 2).1 = .ok c ∧
    x.Of nestedFunctions 2 c ∧ x.routines.length = 2 ∧
      ∀ a ∈ x.routines, ∃ chunk ∈ x.chunks.code, Enters chunk.frame.fp a.routine.instrs a.liveness := by
  obtain ⟨c, hc⟩ := exists_compile_nestedFunctions
  obtain ⟨x, hx, hroutines⟩ := frame_pointer_live_at_entry nestedFunctions 2 c hc
  refine ⟨c, x, hc, hx, ?_, fun a ha => ?_⟩
  · rw [← hroutines.length_eq]
    exact hx.lowering.length_nestedFunctions
  · obtain ⟨chunk, hchunk, _, _, _, _, _, -, -, -, -, henters⟩ := exists_left_of_forall₂ hroutines ha
    exact ⟨chunk, hchunk, henters⟩

end MmixCompiler
