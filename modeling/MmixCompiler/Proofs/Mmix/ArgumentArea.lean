import MmixCompiler.Proofs.Mmix.Selection

/-! Where selected code stores at the stack pointer. Wherever control comes from, such a store goes to one of the
words that a call of the code has arguments for. -/

namespace MmixCompiler

open Mmix Fresh List

namespace Mmix

/-- An operation that neither sets the stack pointer nor stores at it. -/
structure Op.SparesStack (op : Op) : Prop where
  keeps : op.target? ≠ some .sp
  stores : ∀ src offset, op ≠ .store src .sp offset

/-- Code from a line on stores at the stack pointer only in the first `n` words there, and leaves the stack pointer
as it is. To a label control may come from anywhere. -/
def Guarded (w : World) (n : Nat) : List Line → Core → Prop
  | [], _ => True
  | .label _ :: rest, _ => ∀ c, Guarded w n rest c
  | .op op :: rest, c => (∀ src offset, op = .store src .sp offset → ∃ i < n, offset.word c = .ofNat 64 (i * 8)) ∧
      ∀ c' l, op.exec w c = some (c', l) → c'.regs .sp = c.regs .sp ∧ Guarded w n rest c'

section
variable {w : World} {n : Nat} {ops : List Op} {rest : List Line} {c c' : Core}

theorem guarded_of_execAll (hops : ∀ op ∈ ops, op.SparesStack) (hexec : execAll w ops c = some c')
    (hrest : Guarded w n rest c') : Guarded w n (ops.map .op ++ rest) c := by
  induction ops generalizing c with
  | nil =>
    cases hexec
    exact hrest
  | cons op ops ih =>
    obtain ⟨hop, hops⟩ := forall_mem_cons.mp hops
    simp only [execAll] at hexec
    split at hexec
    · next d hd =>
      refine ⟨fun src offset heq => absurd heq (hop.stores src offset), fun c₁ l h₁ => ⟨?_, ?_⟩⟩
      · exact (op.accounted w).writes c c₁ l h₁ _ hop.keeps
      · cases hd.symm.trans h₁
        exact ih hops hexec
    · cases hexec

theorem guarded_of_spares (hops : ∀ op ∈ ops, op.SparesStack) (hrest : ∀ c, Guarded w n rest c) :
    Guarded w n (ops.map .op ++ rest) c := by
  induction ops generalizing c with
  | nil => exact hrest c
  | cons op ops ih =>
    obtain ⟨hop, hops⟩ := forall_mem_cons.mp hops
    exact ⟨fun src offset heq => absurd heq (hop.stores src offset), fun c₁ l h₁ =>
      ⟨(op.accounted w).writes c c₁ l h₁ _ hop.keeps, ih hops⟩⟩

theorem sparesStack_loadConst (t : Temp) (value : Int) : ∀ op ∈ loadConst (.temp t) value, op.SparesStack := by
  intro op hop
  obtain ⟨n, -, rfl⟩ | ⟨part, n, -, rfl⟩ | rfl := loadConst_cases hop <;>
    exact ⟨by simp [Op.target?, Reg.sp], by simp⟩

theorem guarded_storeArg {arg : Temp} {i : Nat} {s s' : Supply}
    (hops : Gives (storeArg arg (i * 8)) s ops s') (hi : i < n) (hrest : ∀ c, Guarded w n rest c) :
    Guarded w n (ops.map .op ++ rest) c := by
  have hstore : ∀ {c : Core} {offset : Value}, offset.word c = .ofNat 64 (i * 8) →
      Guarded w n (.op (.store (.temp arg) .sp offset) :: rest) c := by
    intro c offset hoffset
    refine ⟨fun src offset' heq => ?_, fun c' l h => ⟨?_, hrest c'⟩⟩
    · cases heq
      exact ⟨i, hi, hoffset⟩
    · exact (Op.accounted w _).writes c c' l h _ (by simp [Op.target?])
  obtain ⟨-, rfl, -⟩ | ⟨rfl, -⟩ := storeArg_cases hops
  · exact hstore rfl
  · rw [map_append, append_assoc]
    refine guarded_of_execAll (sparesStack_loadConst _ _) (execAll_loadConst (.temp _) _) (hstore ?_)
    simp only [Value.word, Core.set_regs, if_true, BitVec.ofInt_natCast]

theorem guarded_storeArgs {args : List Ir.Expr} {i : Nat} {s s' : Supply}
    (hops : Gives (Ir.Expr.storeArgs i args) s ops s') (hi : i + args.length ≤ n) (hrest : ∀ c, Guarded w n rest c) :
    Guarded w n (ops.map .op ++ rest) c := by
  induction args generalizing i ops s c with
  | nil =>
    obtain ⟨rfl, -⟩ := gives_pure.mp hops
    exact hrest c
  | cons e args ih =>
    obtain ⟨t, first, s₁, more, -, hfirst, hmore, rfl⟩ := gives_storeArgs_cons.mp hops
    rw [length_cons] at hi
    rw [map_append, append_assoc]
    exact guarded_storeArg hfirst (by omega) fun c => ih hmore (by omega)

end

end Mmix

section
variable {w : World} {n kept : Nat} {s s' : Supply} {st : Ir.Stmt} {block rest : List Line} {c : Core}

theorem sparesStack_binop (op : BinaryOp) (dst l r : Temp) :
    ∀ o ∈ .alu (aluOf op) (.temp dst) (.temp l) (.reg (.temp r)) :: finish (.temp dst) op, o.SparesStack := by
  refine forall_mem_cons.mpr ⟨⟨by simp [Op.target?, Reg.sp], by simp⟩, fun o ho => ?_⟩
  cases op <;> simp only [finish, mem_singleton, not_mem_nil] at ho <;> subst ho <;>
    exact ⟨by simp [Op.target?, Reg.sp], by simp⟩

/-- The operations for an expression store the arguments of a call, and nothing else at the stack pointer. -/
theorem guarded_computed {e : Ir.Expr} {dst : Temp} {ops : List Op} (hops : Computed kept dst s e ops s')
    (he : ∀ l args, e = .call l args → args.length ≤ n) (hrest : ∀ c, Guarded w n rest c) :
    Guarded w n (ops.map .op ++ rest) c := by
  cases hops with
  | const => exact guarded_of_spares (sparesStack_loadConst dst _) hrest
  | binop _ l r => exact guarded_of_spares (sparesStack_binop _ dst l r) hrest
  | @call label args stores _ hstores =>
    have hlength := he label args rfl
    rw [map_append, append_assoc]
    refine guarded_storeArgs hstores (by omega) fun c => guarded_of_spares ?_ hrest
    refine forall_mem_cons.mpr ⟨⟨by simp [Op.target?], by simp⟩, forall_mem_singleton.mpr ⟨?_, by simp⟩⟩
    simp [Op.target?, Reg.sp]
  | _ => exact guarded_of_spares (forall_mem_singleton.mpr ⟨by simp [Op.target?, Reg.sp], by simp⟩) hrest

/-- The statement makes no call with more than `n` arguments. -/
def Ir.Stmt.CallsWithin (n : Nat) (st : Stmt) : Prop := ∀ dst l args, st = .move dst (.call l args) → args.length ≤ n

theorem Chosen.guarded (h : Chosen kept s s' st block) (hst : st.CallsWithin n) (hrest : ∀ c, Guarded w n rest c) :
    Guarded w n (block ++ rest) c := by
  have hone : ∀ {o : Op}, o.SparesStack → Guarded w n (.op o :: rest) c := fun ho =>
    guarded_of_spares (forall_mem_singleton.mpr ho) hrest
  cases h with
  | label => exact hrest
  | jump | branch => exact hone ⟨by simp [Op.target?], by simp⟩
  | store => exact hone ⟨by simp [Op.target?], by simp [Reg.sp]⟩
  | compute hops =>
    refine guarded_computed hops ?_ hrest
    rintro l args rfl
    exact hst _ l args rfl

end

section
variable {w : World} {n kept bound : Nat} {stmts : List Ir.Stmt} {blocks : List (List Line)}

theorem getElem?_of_labelIndex? {lines : List Line} {l : Label} {k : Nat}
    (h : labelIndex? (lines.map Line.instr) l = some k) : lines[k]? = some (.label l) := by
  obtain ⟨hlt, hk, -⟩ := findIdx?_eq_some_iff_getElem.mp h
  rw [length_map] at hlt
  rw [getElem_map, decide_eq_true_eq] at hk
  rw [getElem?_eq_getElem hlt]
  cases hline : lines[k] with
  | label l' =>
    rw [hline] at hk
    exact congrArg (some ∘ Line.label) (Option.some.inj hk)
  | op o =>
    rw [hline] at hk
    cases hk

section

variable (hblocks : List.Forall₂ (Chooses kept bound) stmts blocks)

include hblocks

theorem guarded_flatten
    (hstmts : ∀ st ∈ stmts, st.CallsWithin n) (c : Core) : Guarded w n blocks.flatten c := by
  induction hblocks generalizing c with
  | nil => trivial
  | cons hblock _ ih =>
    obtain ⟨hst, hstmts⟩ := forall_mem_cons.mp hstmts
    obtain ⟨s, s', -, hblock⟩ := hblock
    exact hblock.guarded hst (ih hstmts)

theorem guarded_of_label
    (hstmts : ∀ st ∈ stmts, st.CallsWithin n) {k : Nat} {l : Label}
    (hk : blocks.flatten[k]? = some (.label l)) (c : Core) :
    Guarded w n (blocks.flatten.drop (k + 1)) c := by
  induction hblocks generalizing k with
  | nil => cases hk
  | @cons st block stmts blocks hblock hblocks ih =>
    have hrest := (forall_mem_cons.mp hstmts).2
    obtain ⟨s, s', -, hblock⟩ := hblock
    rw [flatten_cons] at hk ⊢
    rcases Nat.lt_or_ge k block.length with hlt | hge
    · rw [getElem?_append_left hlt] at hk
      obtain ⟨l', rfl, rfl⟩ | ⟨-, hnone⟩ := hblock.labels
      · obtain rfl : k = 0 := by simpa using hlt
        exact guarded_flatten hblocks hrest c
      · cases hnone _ (mem_of_getElem? hk)
    · rw [getElem?_append_right hge] at hk
      rw [drop_append, drop_eq_nil_of_le (by omega), nil_append, Nat.sub_add_comm hge]
      exact ih hrest hk

theorem guarded_of_reaches (hstmts : ∀ st ∈ stmts, st.CallsWithin n) {start : Core} {at_ : Nat × Core}
    (h : Reaches w blocks.flatten (0, start) at_) :
    at_.2.regs .sp = start.regs .sp ∧ Guarded w n (blocks.flatten.drop at_.1) at_.2 := by
  induction h with
  | refl => exact ⟨rfl, guarded_flatten hblocks hstmts start⟩
  | @tail b d _ hstep ih =>
    obtain ⟨k, core⟩ := b
    obtain ⟨hsp, hguarded⟩ := ih
    simp only [stepLine] at hstep
    split at hstep
    · cases hstep
    · next hline =>
      cases hstep
      exact ⟨hsp, guarded_of_label hblocks hstmts hline core⟩
    · next op hline =>
      obtain ⟨hlt, hget⟩ := List.getElem?_eq_some_iff.mp hline
      rw [drop_eq_getElem_cons hlt, hget] at hguarded
      split at hstep
      · cases hstep
      · next core' hexec =>
        cases hstep
        obtain ⟨hkeeps, hnext⟩ := hguarded.2 _ _ hexec
        exact ⟨hkeeps.trans hsp, hnext⟩
      · next core' l hexec =>
        obtain ⟨j, hj, rfl⟩ := Option.map_eq_some_iff.mp hstep
        have hlabel := getElem?_of_labelIndex? hj
        obtain ⟨hlt, hget⟩ := List.getElem?_eq_some_iff.mp hlabel
        refine ⟨(hguarded.2 _ _ hexec).1.trans hsp, ?_⟩
        rw [drop_eq_getElem_cons hlt, hget]
        exact guarded_of_label hblocks hstmts hlabel

end

end

end MmixCompiler
