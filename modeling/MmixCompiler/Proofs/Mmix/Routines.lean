import MmixCompiler.Mmix.Listing
import MmixCompiler.Proofs.Mmix.Templates
import MmixCompiler.Proofs.Register.Termination
import MmixCompiler.Report

/-! Routines that are chosen for chunks. Allocation gives them registers, and then they can be written. -/

namespace MmixCompiler

open Mmix Fresh List

/-- What an operation chosen for a statement does, if the statement reads and writes the given temporaries: it updates a
temporary that is the statement's or taken for it, or it reads others and writes such a one, or it only reads. -/
inductive Mmix.Op.Serves (reads writes : List Temp) (labels gotos : List Label) (s s' : Supply) (op : Op) : Prop where
  | update {t : Temp} (ht : Ir.Known writes s s' t) (huses : op.uses = [t]) (hdefs : op.defs = [t])
      (hjumps : op.jumps = []) (hlabels : op.labels = [])
  | write {t : Temp} (us : List Temp) (ht : Ir.Known writes s s' t) (huses : op.uses = us) (hdefs : op.defs = [t])
      (hjumps : op.jumps = []) (hlength : us.length ≤ 2) (hus : us ⊆ reads) (hlabels : op.labels ⊆ labels)
  | read (us : List Temp) (huses : op.uses = us) (hdefs : op.defs = []) (hjumps : op.jumps ⊆ gotos)
      (hlength : us.length ≤ 2) (hus : ∀ t ∈ us, Ir.Known reads s s' t) (hlabels : op.labels ⊆ labels)

/-- An operation that allocation can work on, with temporaries below a number, and that can be written. -/
structure Mmix.Op.Fit (fp : Temp) (bound : Nat) (op : Op) : Prop where
  plain : op.oper.Plain fp
  temps : ∀ t ∈ op.instr.temps, t < bound
  labels : ∀ l ∈ op.labels, l.Plain

theorem Mmix.Op.Fit.mono {fp : Temp} {bound bound' : Nat} {op : Op} (h : op.Fit fp bound) (hle : bound ≤ bound') :
    op.Fit fp bound' :=
  ⟨h.plain, fun t ht => Nat.lt_of_lt_of_le (h.temps t ht) hle, h.labels⟩

namespace Mmix.Op.Serves

variable {reads writes : List Temp} {labels gotos : List Label} {s s' : Supply} {op : Op}

theorem mono {reads' writes' : List Temp} {labels' gotos' : List Label} {s₁ s₂ : Supply}
    (h : op.Serves reads writes labels gotos s₁ s₂) (hreads : reads ⊆ reads') (hwrites : writes ⊆ writes')
    (hlabels : labels ⊆ labels') (hgotos : gotos ⊆ gotos') (hs : s.temps ≤ s₁.temps) (hs' : s₂.temps ≤ s'.temps) :
    op.Serves reads' writes' labels' gotos' s s' := by
  cases h with
  | update ht huses hdefs hjumps hnone => exact .update (ht.mono hwrites hs hs') huses hdefs hjumps hnone
  | write us ht huses hdefs hjumps hlength hus hls =>
    exact .write us (ht.mono hwrites hs hs') huses hdefs hjumps hlength (List.Subset.trans hus hreads)
      (List.Subset.trans hls hlabels)
  | read us huses hdefs hjumps hlength hus hls =>
    exact .read us huses hdefs (List.Subset.trans hjumps hgotos) hlength (fun t ht => (hus t ht).mono hreads hs hs')
      (List.Subset.trans hls hlabels)

section

variable (h : op.Serves reads writes labels gotos s s')

include h

theorem jumps_subset : op.jumps ⊆ gotos := by
  cases h with
  | update _ _ _ hjumps | write _ _ _ _ hjumps => simp [hjumps]
  | read _ _ _ hjumps => exact hjumps

theorem mem_defs {u : Temp} (hu : u ∈ op.defs) : Ir.Known writes s s' u := by
  cases h with
  | update ht _ hdefs | write _ ht _ hdefs =>
    rw [hdefs] at hu
    exact mem_singleton.mp hu ▸ ht
  | read _ _ hdefs => simp [hdefs] at hu

theorem fit (hs : s.temps ≤ s'.temps) {fp : Temp} (hfp : fp < s.temps)
    (hwrites : ∀ t ∈ writes, t < s.temps ∧ t ≠ fp ∧ t ∉ reads) (hreads : ∀ t ∈ reads, t < s.temps)
    (hlabels : ∀ l ∈ labels, l.Plain) : op.Fit fp s'.temps := by
  have hread : ∀ t, Ir.Known reads s s' t → t < s'.temps := fun t ht =>
    ht.elim (fun ht => Nat.lt_of_lt_of_le (hreads t ht) hs) (·.2)
  have hwrite : ∀ t, Ir.Known writes s s' t → t < s'.temps ∧ t ≠ fp ∧ t ∉ reads := by
    rintro t (ht | ⟨hle, hlt⟩)
    · exact ⟨Nat.lt_of_lt_of_le (hwrites t ht).1 hs, (hwrites t ht).2⟩
    · exact ⟨hlt, Nat.ne_of_gt (Nat.lt_of_lt_of_le hfp hle), fun hmem => Nat.not_lt.mpr hle (hreads t hmem)⟩
  cases h with
  | @update t ht huses hdefs hjumps hnone =>
    refine ⟨⟨fun hne => absurd hjumps hne, .inl ⟨t, huses, hdefs, (hwrite t ht).2.1⟩⟩, ?_, by simp [hnone]⟩
    simp [Instr.temps, Op.instr, Instr.uses, Instr.defs, huses, hdefs, (hwrite t ht).1]
  | @write t us ht huses hdefs hjumps hlength hus hls =>
    subst huses
    refine ⟨⟨fun hne => absurd hjumps hne, .inr ⟨Nat.le_trans (length_filter_le ..) hlength, ?_, ?_⟩⟩, ?_,
      fun l hl => hlabels l (hls hl)⟩
    · exact Nat.le_of_eq (congrArg List.length hdefs)
    · intro u hu hmem
      obtain rfl : u = t := mem_singleton.mp (hdefs ▸ hmem)
      exact (hwrite u ht).2.2 (hus hu)
    · refine forall_mem_append.mpr ⟨fun u hu => hread u (.inl (hus hu)), fun u hu => ?_⟩
      obtain rfl : u = t := mem_singleton.mp (hdefs ▸ hu)
      exact (hwrite u ht).1
  | read us huses hdefs hjumps hlength hus hls =>
    subst huses
    have hnone : ∀ u, u ∉ op.defs := by simp [hdefs]
    exact ⟨⟨fun _ => hdefs, .inr ⟨Nat.le_trans (length_filter_le ..) hlength,
      Nat.le_trans (Nat.le_of_eq (congrArg List.length hdefs)) (Nat.zero_le 1), fun u _ => hnone u⟩⟩,
      forall_mem_append.mpr ⟨fun u hu => hread u (hus u hu), fun u hu => absurd hu (hnone u)⟩,
      fun l hl => hlabels l (hls hl)⟩

end

end Mmix.Op.Serves

section
variable {dst : Temp} {kept : Nat} {s s' : Supply} {ops : List Op}

theorem serves_loadConst {reads writes : List Temp} {labels gotos : List Label} {t : Temp} {value : Int}
    (ht : Ir.Known writes s s' t) : ∀ op ∈ loadConst (.temp t) value, op.Serves reads writes labels gotos s s' := by
  intro op h
  obtain ⟨n, -, rfl⟩ | ⟨part, n, -, rfl⟩ | rfl := loadConst_cases h
  · exact .write [] ht rfl rfl rfl (by simp) (by simp) (by simp [Op.labels])
  · exact .update ht rfl rfl rfl rfl
  · exact .update ht rfl rfl rfl rfl

theorem serves_storeArg {t : Temp} {offset : Nat} (h : Gives (storeArg t offset) s ops s') :
    ∀ op ∈ ops, op.Serves [t] [] [] [] s s' := by
  obtain ⟨-, rfl, rfl⟩ | ⟨rfl, rfl⟩ := storeArg_cases h
  · exact forall_mem_singleton.mpr
      (.read [t] rfl rfl (by simp [Op.jumps]) (by simp) (fun _ hu => .inl hu) (by simp [Op.labels]))
  · have hfresh : ∀ ts, Ir.Known ts s ⟨s.temps + 1, s.labels⟩ s.temps :=
      fun _ => .inr ⟨Nat.le_refl _, Nat.lt_succ_self _⟩
    refine forall_mem_append.mpr ⟨serves_loadConst (hfresh _), forall_mem_singleton.mpr ?_⟩
    exact .read [t, s.temps] rfl rfl (by simp [Op.jumps]) (by simp)
      (forall_mem_cons.mpr ⟨.inl mem_cons_self, forall_mem_singleton.mpr (hfresh _)⟩) (by simp [Op.labels])

theorem serves_storeArgs {args : List Ir.Expr} {i : Nat} (h : Gives (Ir.Expr.storeArgs i args) s ops s') :
    ∀ op ∈ ops, op.Serves (Ir.Expr.tempsAll args) [] [] [] s s' := by
  induction args generalizing i s ops with
  | nil =>
    obtain ⟨rfl, -⟩ := gives_pure.mp h
    simp
  | cons e args ih =>
    obtain ⟨t, first, s₁, rest, rfl, hfirst, hrest, rfl⟩ := gives_storeArgs_cons.mp h
    refine forall_mem_append.mpr ⟨fun op hop => ?_, fun op hop => ?_⟩
    · exact (serves_storeArg hfirst op hop).mono (subset_append_left ..) (List.Subset.refl _) (List.Subset.refl _)
        (List.Subset.refl _) (Nat.le_refl _) (temps_le_of_storeArgs hrest)
    · exact (ih hrest op hop).mono (subset_append_right ..) (List.Subset.refl _) (List.Subset.refl _)
        (List.Subset.refl _) (temps_le_of_storeArg hfirst) (Nat.le_refl _)

theorem serves_computed {e : Ir.Expr} (h : Computed kept dst s e ops s') :
    ∀ op ∈ ops, op.Serves e.temps [dst] e.names [] s s' := by
  have hdst : Ir.Known [dst] s s' dst := .inl mem_cons_self
  -- One operation that writes the temporary and reads others.
  have hwrite : ∀ (op : Op) (us : List Temp), op.uses = us → op.defs = [dst] → op.jumps = [] → us.length ≤ 2 →
      us ⊆ e.temps → op.labels ⊆ e.names → op.Serves e.temps [dst] e.names [] s s' :=
    fun op us huses hdefs hjumps hlength hus hlabels => .write us hdst huses hdefs hjumps hlength hus hlabels
  cases h with
  | const => exact serves_loadConst hdst
  | name =>
    exact forall_mem_singleton.mpr (hwrite _ [] rfl rfl rfl (by simp) (by simp) (List.Subset.refl _))
  | temp t | mem t | neg t | not t =>
    exact forall_mem_singleton.mpr (hwrite _ [t] rfl rfl rfl (by simp) (List.Subset.refl _) (by simp [Op.labels]))
  | binop op l r =>
    refine forall_mem_cons.mpr ⟨?_, fun o ho => ?_⟩
    · exact hwrite _ [l, r] rfl rfl rfl (by simp) (List.Subset.refl _) (by simp [Op.labels])
    · cases op <;> simp only [finish, not_mem_nil, mem_singleton] at ho <;> subst ho
      case mod => exact hwrite _ [] rfl rfl rfl (by simp) (by simp) (by simp [Op.labels])
      all_goals exact .update hdst rfl rfl rfl rfl
  | call label hstores =>
    refine forall_mem_append.mpr ⟨fun op hop => ?_, forall_mem_cons.mpr ⟨?_, ?_⟩⟩
    · exact (serves_storeArgs hstores op hop).mono (List.Subset.refl _) (nil_subset _) (nil_subset _)
        (List.Subset.refl _) (Nat.le_refl _) (Nat.le_refl _)
    · exact .read [] rfl rfl (by simp [Op.jumps]) (by simp) (by simp) (by simp [Op.labels, Ir.Expr.names])
    · exact forall_mem_singleton.mpr (hwrite _ [] rfl rfl rfl (by simp) (by simp) (by simp [Op.labels]))

theorem Chosen.serves {st : Ir.Stmt} {block : List Line} (h : Chosen kept s s' st block) {op : Op}
    (hop : .op op ∈ block) : op.Serves st.outline.uses st.outline.defs (st.names ++ st.gotos) st.gotos s s' := by
  cases h with
  | label => cases mem_singleton.mp hop
  | jump =>
    cases mem_singleton.mp hop
    exact .read [] rfl rfl (List.Subset.refl _) (by simp) (by simp) (List.Subset.refl _)
  | @branch t =>
    cases mem_singleton.mp hop
    exact .read [t] rfl rfl (by simp [Op.jumps, Ir.Stmt.gotos]) (by simp) (fun _ hu => .inl hu)
      (by simp [Op.labels, Ir.Stmt.gotos])
  | @store a t =>
    cases mem_singleton.mp hop
    exact .read [t, a] rfl rfl (by simp [Op.jumps]) (by simp) (fun _ hu => .inl (perm_append_comm.subset hu))
      (by simp [Op.labels])
  | compute h =>
    obtain ⟨op, hop, heq⟩ := mem_map.mp hop
    cases heq
    exact (serves_computed h op hop).mono (List.Subset.refl _) (List.Subset.refl _) (subset_append_left ..)
      (nil_subset _) (Nat.le_refl _) (Nat.le_refl _)

end

/-- A routine that allocation can work on, with temporaries out of a supply, and that can be written. -/
structure Routine.Fit (r : Routine) (s : Supply) : Prop where
  labelled : Labelled r.instrs
  below : r.Below s
  plain : ∀ o, .oper o ∈ r.instrs → o.Plain r.frame.fp
  wellFormed : ∀ i ∈ r.instrs, i.WellFormed

section
variable {kept : Nat} {s s' : Supply} {c : CodeChunk}

theorem labels_of_chosen {stmts : List Ir.Stmt} {blocks : List (List Line)}
    (h : List.Forall₂ (fun st block => ∃ s₁ s₂, Chosen kept s₁ s₂ st block) stmts blocks) :
    (blocks.flatten.map Line.instr).filterMap Instr.label? = Ir.labelsOf stmts := by
  induction h with
  | nil => rfl
  | cons h _ ih =>
    obtain ⟨s₁, s₂, h⟩ := h
    rw [flatten_cons, map_append, filterMap_append, ih]
    obtain ⟨l, rfl, rfl⟩ | ⟨hnone, hblock⟩ := h.labels
    · rfl
    · have hnil := filterMap_eq_nil_iff.mpr (forall_mem_map.mpr hblock)
      simp [hnil, Ir.labelsOf, hnone]

theorem exists_labelIndex? {code : List Instr} {l : Label} (h : l ∈ code.filterMap Instr.label?) :
    ∃ k, labelIndex? code l = some k := by
  obtain ⟨i, hi, hl⟩ := mem_filterMap.mp h
  rw [← Option.isSome_iff_exists, labelIndex?, findIdx?_isSome, any_eq_true]
  exact ⟨i, hi, decide_eq_true hl⟩

theorem CodeChunk.Fit.fit_ops (h : c.Fit s) {blocks : List (List Line)}
    (hmap : Gives (c.stmts.mapM (Ir.Stmt.select kept)) s blocks s') {op : Op} (hop : .op op ∈ blocks.flatten) :
    op.Fit c.frame.fp s'.temps ∧ op.jumps ⊆ Ir.labelsOf c.stmts := by
  have hplain : ∀ l ∈ Ir.labelsOf c.stmts, l.Plain := fun l hl => by
    obtain ⟨n, rfl⟩ := h.labels l hl
    trivial
  obtain ⟨-, hblocks⟩ := chosen_between hmap
  obtain ⟨block, hblock, hop⟩ := mem_flatten.mp hop
  obtain ⟨st, hst, s₁, s₂, hs₁, hs₂, hchosen⟩ := exists_left_of_forall₂ hblocks hblock
  have hserves := hchosen.serves hop
  have hbelow : ∀ t ∈ st.temps, t < s₁.temps := fun t ht => Nat.lt_of_lt_of_le (h.temps st hst t ht) hs₁
  have hfit : op.Fit c.frame.fp s₂.temps := by
    refine hserves.fit hchosen.temps_le (Nat.lt_of_lt_of_le h.fp hs₁) (fun t ht => ?_) (fun t ht => ?_) ?_
    · obtain ⟨e, rfl⟩ := Ir.Stmt.mem_outline_defs ht
      exact ⟨hbelow t (mem_append_left _ ht), h.writes t e hst⟩
    · exact hbelow t (st.outline_uses_subset ht)
    · exact forall_mem_append.mpr ⟨h.names st hst, fun l hl => hplain l (h.gotos st hst hl)⟩
  exact ⟨hfit.mono hs₂, List.Subset.trans hserves.jumps_subset (h.gotos st hst)⟩

theorem CodeChunk.Fit.exists_routine (h : c.Fit s) (kept : Nat) : ∃ r s', Gives (c.select kept) s r s' ∧ r.Fit s' ∧
    r.frame = c.frame ∧ r.spilled = 0 ∧ s.temps ≤ s'.temps := by
  obtain ⟨blocks, s', hmap⟩ := exists_gives_mapM (fun st hst => exists_select (h.canonical.forms st hst) kept) s
  obtain ⟨hle, hblocks⟩ := chosen_between hmap
  have hlabels := labels_of_chosen (hblocks.imp fun _ _ h => h.imp fun _ h => h.imp fun _ h => h.2.2)
  have hinstrs : ∀ i ∈ blocks.flatten.map Line.instr, (∃ l, i = .label l) ∨
      ∃ op : Op, i = op.instr ∧ op.Fit c.frame.fp s'.temps ∧ op.jumps ⊆ Ir.labelsOf c.stmts := by
    intro i hi
    obtain ⟨line, hline, rfl⟩ := mem_map.mp hi
    cases line with
    | label l => exact .inl ⟨l, rfl⟩
    | op op => exact .inr ⟨op, rfl, h.fit_ops hmap hline⟩
  have hselect : Gives (c.select kept) s ⟨c.frame, c.entry, c.exit, blocks.flatten.map Line.instr, none, 0⟩ s' := by
    simp only [CodeChunk.select, Ir.Stmt.selectAll, gives_bind, gives_pure]
    exact ⟨_, _, ⟨blocks, _, hmap, rfl, rfl⟩, rfl, rfl⟩
  refine ⟨_, s', hselect, ⟨⟨?_, ?_⟩, ⟨Nat.lt_of_lt_of_le h.fp hle, ?_⟩, ?_, ?_⟩, rfl, rfl, hle⟩
  · rw [hlabels]
    exact h.canonical.nodup
  · intro i hi l hl
    rcases hinstrs i hi with ⟨_, rfl⟩ | ⟨op, rfl, -, hjumps⟩
    · cases hl
    · exact exists_labelIndex? (hlabels ▸ hjumps hl)
  · intro i hi t ht
    rcases hinstrs i hi with ⟨_, rfl⟩ | ⟨op, rfl, hfit, -⟩
    · cases ht
    · exact hfit.temps t ht
  · intro o ho
    rcases hinstrs _ ho with ⟨_, heq⟩ | ⟨op, heq, hfit, -⟩
    · cases heq
    · cases heq
      exact hfit.plain
  · intro i hi
    rcases hinstrs i hi with ⟨_, rfl⟩ | ⟨op, rfl, hfit, -⟩
    · trivial
    · exact Op.wellFormed hfit.labels

end

section
variable {r : Routine} {s s' : Supply} {registers : Nat} {a : Routine.Allocated}

/-- Every instruction can be written, and every temporary has a register. -/
structure Routine.Allocated.Complete (a : Routine.Allocated) (regs : Registers) : Prop where
  registers : a.routine.registers = some regs
  wellFormed : ∀ i ∈ a.routine.instrs, i.WellFormed
  assigned : ∀ i ∈ a.routine.instrs, ∀ t, t ∈ i.uses ∨ t ∈ i.defs → t ≠ a.routine.frame.fp → ∃ n, regs[t]? = some n

theorem Routine.Fit.complete (h : r.Fit s) (ha : Gives (r.allocate registers) s a s') :
    s.temps ≤ s'.temps ∧ a.routine.frame = r.frame ∧ ∃ regs, a.Complete regs := by
  obtain ⟨hframe, passes, regs, hlive, hregs, hcolors, -⟩ := exists_colors_of_rounds ha
  have hsolves := (liveness_solves hlive).2
  obtain ⟨ts, r', hrounds, heq⟩ := spillRounds_of_rounds ha
  obtain ⟨hspills, -⟩ := hrounds.spills h.below
  refine ⟨hspills.supply_le, hframe, regs, hregs, ?_, fun i hi t ht hne => ?_⟩
  · rw [heq]
    exact hspills.wellFormed h.wellFormed
  · rw [hframe] at hne
    have hnode := (Interference.mem_nodes_ofCode hsolves).mpr ⟨hne, i, hi, ht⟩
    obtain ⟨n, -, hn⟩ := (Interference.proper_ofCode hsolves.sorted).color_spec hcolors hnode
    exact ⟨n, hn⟩

variable {regs : Registers}

theorem Routine.Allocated.Complete.exists_rows (h : a.Complete regs) (kept : Nat) :
    ∃ rows, a.routine.rows kept = .ok rows := by
  have hitem : ∀ i ∈ a.routine.instrs, ∃ x, Routine.item a.routine.frame.fp regs i = .ok x := by
    intro i hi
    cases i with
    | label l => exact ⟨_, rfl⟩
    | oper o =>
      have hoperand : ∀ t, t ∈ o.uses ∨ t ∈ o.defs → ∃ s, regs.operand a.routine.frame.fp t = .ok s := by
        intro t ht
        unfold Registers.operand
        split
        · exact ⟨_, rfl⟩
        · next hne =>
          obtain ⟨n, hn⟩ := h.assigned _ hi t ht hne
          simp only [hn]
          exact ⟨_, rfl⟩
      obtain ⟨text, htext⟩ := Oper.WellFormed.exists_expand (h.wellFormed _ hi) hoperand
      exact ⟨_, bind_eq_ok.mpr ⟨text, htext, rfl⟩⟩
  obtain ⟨body, hbody⟩ := exists_mapM_eq_ok hitem
  rw [Routine.rows, h.registers]
  exact ⟨_, bind_eq_ok.mpr ⟨body, hbody, rfl⟩⟩

theorem Routine.Allocated.Complete.exists_ofAllocated (h : a.Complete regs) : ∃ j, Json.ofAllocated a = .ok j := by
  have htext : ∀ i ∈ a.routine.instrs, ∃ s, i.text = .ok s := by
    intro i hi
    cases i with
    | label l => exact ⟨_, rfl⟩
    | oper o =>
      have hoperand : ∀ t, t ∈ o.uses ∨ t ∈ o.defs → ∃ s, (return Temp.text t : Except CompileError String) = .ok s :=
        fun t _ => ⟨_, rfl⟩
      obtain ⟨text, htext⟩ := Oper.WellFormed.exists_expand (h.wellFormed _ hi) hoperand
      exact ⟨_, bind_eq_ok.mpr ⟨text, htext, rfl⟩⟩
  have hinstr : ∀ x ∈ a.routine.instrs.zipIdx, ∃ j, Json.ofInstr a.liveness x.2 x.1 = .ok j := by
    intro x hx
    obtain ⟨text, htext⟩ := htext x.1 (fst_mem_of_mem_zipIdx hx)
    exact ⟨_, bind_eq_ok.mpr ⟨text, htext, rfl⟩⟩
  obtain ⟨instrs, hinstrs⟩ := exists_mapM_eq_ok hinstr
  exact ⟨_, bind_eq_ok.mpr ⟨instrs, hinstrs, rfl⟩⟩

end

end MmixCompiler
