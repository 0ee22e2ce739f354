import MmixCompiler.Proofs.Mmix.Activation
import MmixCompiler.Proofs.Mmix.Emission

/-! The lines that make and leave a frame, read as operations and run: the second undo what the first do. -/

namespace MmixCompiler

open Mmix

namespace Mmix

/-- The operation of a row, which names no temporaries. -/
def Row.op? (row : Row) : Option Op := Oper.read? ⟨"", [], [], []⟩ row.opcode row.operands.toList

/-- Operations that frames need. They name registers of the machine. -/
structure Op.Framing (op : Op) : Prop where
  uses : op.uses = []
  defs : op.defs = []
  fits : op.Fits
  branch : ∀ x yes no, op ≠ .branch x yes no

def Op.row (label : String) (op : Op) : Row := ⟨label, op.opcode, op.operands⟩

theorem Op.Framing.op?_row {op : Op} (h : op.Framing) (label : String) : (op.row label).op? = some op := by
  have hnames : Oper.Names ⟨"", [], [], []⟩ op :=
    ⟨h.uses.symm, h.defs.symm, fun x yes no heq => absurd heq (h.branch x yes no)⟩
  exact hnames.read?_eq h.fits

theorem framing_loadConst {x : Nat} {value : Int} {op : Op} (h : op ∈ loadConst (.hard x) value) : op.Framing := by
  have hfits := (straight_loadConst h).fits
  obtain ⟨n, -, rfl⟩ | ⟨part, n, -, rfl⟩ | rfl := loadConst_cases h <;> exact ⟨rfl, rfl, hfits, by simp⟩

/-- Rows of operations, the first with a label. -/
def labelledRows (label : String) : List Op → List Row
  | [] => []
  | op :: ops => op.row label :: ops.map (Op.row "")

theorem rows_ops (ops : List Op) (items : List Item) :
    Item.rows none (ops.map .ofOp ++ items) = ops.map (Op.row "") ++ Item.rows none items := by
  induction ops with
  | nil => rfl
  | cons op ops ih => exact congrArg (_ :: ·) ih

theorem rows_labelled (l : Label) {ops : List Op} (h : ops ≠ []) (items : List Item) :
    Item.rows (some l) (ops.map .ofOp ++ items) = labelledRows l.text ops ++ Item.rows none items := by
  cases ops with
  | nil => exact absurd rfl h
  | cons op ops => exact congrArg (_ :: ·) (rows_ops ops items)

theorem exists_rows_label (pending : Option Label) (front : List Item) (l : Label) (items : List Item) :
    ∃ rows, Item.rows pending (front ++ .label l :: items) = rows ++ Item.rows (some l) items := by
  induction front generalizing pending with
  | nil =>
    cases pending with
    | none => exact ⟨[], rfl⟩
    | some l' => exact ⟨[⟨l'.text, "SWYM", ""⟩], rfl⟩
  | cons item front ih =>
    cases item with
    | label l' =>
      obtain ⟨rows, hrows⟩ := ih (some l')
      cases pending with
      | none => exact ⟨rows, hrows⟩
      | some l'' => exact ⟨_ :: rows, congrArg (_ :: ·) hrows⟩
    | op opcode operands =>
      obtain ⟨rows, hrows⟩ := ih none
      cases pending with
      | none => exact ⟨_ :: rows, congrArg (_ :: ·) hrows⟩
      | some l' => exact ⟨_ :: rows, congrArg (_ :: ·) hrows⟩

theorem mapM_op?_labelledRows {label : String} {ops : List Op} (h : ∀ op ∈ ops, op.Framing) :
    (labelledRows label ops).mapM Row.op? = some ops := by
  have hrows : ∀ {ops : List Op}, (∀ op ∈ ops, op.Framing) → (ops.map (Op.row "")).mapM Row.op? = some ops := by
    intro ops h
    induction ops with
    | nil => rfl
    | cons op ops ih =>
      obtain ⟨hop, hops⟩ := List.forall_mem_cons.mp h
      simp [hop.op?_row, ih hops]
  cases ops with
  | nil => rfl
  | cons op ops =>
    obtain ⟨hop, hops⟩ := List.forall_mem_cons.mp h
    simp [labelledRows, hop.op?_row, hrows hops]

end Mmix

namespace Routine

variable (r : Routine) (kept : Nat)

theorem framing_prologue : ∀ op ∈ r.prologue, op.Framing := by
  intro op h
  simp only [prologue, List.mem_append, List.mem_cons, List.not_mem_nil, or_false] at h
  rcases h with ((h | rfl | rfl | rfl | rfl | rfl | rfl) | h) | rfl | rfl
  case inl.inl.inl => exact framing_loadConst h
  case inl.inr => exact framing_loadConst h
  all_goals exact ⟨rfl, rfl, by simp [Op.Fits, Value.Fits], by simp⟩

theorem framing_epilogue : ∀ op ∈ r.epilogue kept, op.Framing := by
  intro op h
  simp only [epilogue, List.mem_append, List.mem_cons, List.not_mem_nil, or_false] at h
  rcases h with h | rfl | rfl | rfl | rfl | rfl | rfl | rfl
  case inl => exact framing_loadConst h
  all_goals exact ⟨rfl, rfl, by simp [Op.Fits, Value.Fits], by simp⟩

theorem exists_rows {rows : List Row} (h : r.rows kept = .ok rows) : ∃ body,
    rows = labelledRows r.frame.label.text r.prologue ++ body ++ labelledRows r.exit.text (r.epilogue kept) := by
  obtain ⟨regs, items, -, rfl⟩ := exists_items h
  obtain ⟨body, hbody⟩ := exists_rows_label none items r.exit ((r.epilogue kept).map .ofOp)
  have hprologue : r.prologue ≠ [] := by simp [prologue]
  have hepilogue : Item.rows (some r.exit) ((r.epilogue kept).map .ofOp) =
      labelledRows r.exit.text (r.epilogue kept) := by
    have hne : r.epilogue kept ≠ [] := by simp [epilogue]
    simpa [Item.rows] using rows_labelled r.exit hne []
  refine ⟨body, ?_⟩
  rw [List.append_assoc, List.cons_append, Item.rows, rows_labelled _ hprologue, hbody, hepilogue, List.append_assoc]

end Routine

/-- The rows of a routine begin with operations that make its frame and end with operations that undo them, whatever
happens in between to the rest of memory and to registers other than the frame pointer. -/
theorem epilogue_undoes_prologue (kept : Nat) (r : Routine) {rows : List Row} (h : r.rows kept = .ok rows) :
    ∃ entering body leaving enter leave, rows = entering ++ body ++ leaving ∧
      entering.head?.map Row.label = some r.frame.label.text ∧ entering.mapM Row.op? = some (enter ++ [.jump r.entry]) ∧
      leaving.head?.map Row.label = some r.exit.text ∧ leaving.mapM Row.op? = some (leave ++ [.ret kept]) ∧
      ∀ w c, ∃ c', execAll w enter c = some c' ∧
        c'.regs .fp = c.regs .sp ∧ c'.regs .sp = c.regs .sp - .ofInt 64 (r.frame.size + r.spilled) ∧
        (∀ x ∉ [slot (c'.regs .fp) (r.frame.locals + 8), slot (c'.regs .fp) (r.frame.locals + 16)],
          c'.mem x = c.mem x) ∧
        ∀ w' d, d.regs .fp = c'.regs .fp →
          (∀ x ∈ [slot (c'.regs .fp) (r.frame.locals + 8), slot (c'.regs .fp) (r.frame.locals + 16)],
            d.mem x = c'.mem x) →
          ∃ d', execAll w' leave d = some d' ∧ d'.regs .sp = c.regs .sp ∧ d'.regs .fp = c.regs .fp ∧
            d'.specials .returnAddress = c.specials .returnAddress ∧ d'.mem = d.mem := by
  obtain ⟨body, rfl⟩ := r.exists_rows kept h
  obtain ⟨⟨hjump, hprologue⟩, ⟨hret, hepilogue⟩⟩ := r.links kept
  refine ⟨_, body, _, r.prologue.dropLast, (r.epilogue kept).dropLast, rfl, rfl, ?_, rfl, ?_, fun w c => ?_⟩
  · rw [mapM_op?_labelledRows r.framing_prologue, List.dropLast_append_getLast? _ hjump]
  · rw [mapM_op?_labelledRows (r.framing_epilogue kept), List.dropLast_append_getLast? _ hret]
  obtain ⟨c', hexec, hfp, hsp, hpointer, haddress, hmem⟩ := hprologue w c
  rw [Routine.first_savedPointer] at hpointer hmem
  rw [Routine.first_savedAddress] at haddress hmem
  rw [hfp, Routine.outgoing, BitVec.ofInt_neg, ← BitVec.sub_eq_add_neg] at hsp
  have hslot : r.frame.locals + 8 + 8 = r.frame.locals + 16 := Int.add_assoc ..
  rw [hslot] at haddress hmem
  refine ⟨c', hexec, hfp, hsp, hmem, fun w' d hd hsaved => ?_⟩
  obtain ⟨hsavedPointer, hsavedAddress, -⟩ := List.forall_mem_cons.mp hsaved |>.imp_right List.forall_mem_cons.mp
  obtain ⟨d', hexec', hsp', hfp', hJ', hmem'⟩ := hepilogue w' d
  rw [Routine.first_savedPointer, hd, hsavedPointer, hpointer] at hfp'
  rw [Routine.first_savedAddress, hslot, hd, hsavedAddress, haddress] at hJ'
  exact ⟨d', hexec', by rw [hsp', hd, hfp], hfp', hJ', hmem'⟩

theorem Emittable.labelledStore_undoes : labelledStore.routine.rows 8 = .ok (labelledStore.rows 8) ∧
    ∃ entering body leaving enter leave, labelledStore.rows 8 = entering ++ body ++ leaving ∧
      entering.mapM Row.op? = some (enter ++ [.jump (.fresh 0)]) ∧ leaving.mapM Row.op? = some (leave ++ [.ret 8]) ∧
      ∀ w c, ∃ c', execAll w enter c = some c' ∧ c'.regs .sp = c.regs .sp - 48#64 ∧
        ∀ d, d.regs .fp = c'.regs .fp →
          (∀ x ∈ [slot (c'.regs .fp) 16, slot (c'.regs .fp) 24], d.mem x = c'.mem x) →
          ∃ d', execAll w leave d = some d' ∧ d'.regs .sp = c.regs .sp := by
  have hrows := labelledStore.rows_eq 8
  obtain ⟨entering, body, leaving, enter, leave, hsplit, -, henter, -, hleave, h⟩ :=
    epilogue_undoes_prologue 8 labelledStore.routine hrows
  refine ⟨hrows, entering, body, leaving, enter, leave, hsplit, henter, hleave, fun w c => ?_⟩
  obtain ⟨c', hexec, -, hsp, -, hlater⟩ := h w c
  refine ⟨c', hexec, hsp, fun d hfp hsaved => ?_⟩
  obtain ⟨d', hexec', hsp', -⟩ := hlater w d hfp hsaved
  exact ⟨d', hexec', hsp'⟩

end MmixCompiler
