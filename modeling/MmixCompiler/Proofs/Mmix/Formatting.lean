import MmixCompiler.Proofs.Mmix.Listing

/-! How operations are written once their temporaries have registers: every temporary by the number of its register,
and the opcode apart from the operands. -/

namespace MmixCompiler

open Mmix

namespace Mmix

/-- The register of a temporary. That of the frame pointer is fixed. -/
def Registers.number (regs : Registers) (fp t : Temp) : Nat := if t = fp then 253 else regs.getD t 0

theorem Registers.operand_eq {regs : Registers} {fp t : Temp} (h : t ≠ fp → t ∈ regs) :
    regs.operand fp t = .ok ("$" ++ toString (regs.number fp t)) := by
  unfold Registers.operand Registers.number
  split
  · rfl
  · next hne =>
    rw [Std.TreeMap.getElem?_eq_some_getElem (h hne), Std.TreeMap.getD_eq_getD_getElem?,
      Std.TreeMap.getElem?_eq_some_getElem (h hne)]
    rfl

section
variable {o : Oper} {op : Op} {ρ : Temp → Nat}

theorem Item.ofText_written : Item.ofText (op.opcode ++ " " ++ (op.written ρ).2) = .op op.opcode (op.written ρ).2 := by
  have hopcode : ∀ c ∈ op.opcode.toList, decide (c ≠ ' ') = true :=
    fun c hc => decide_eq_true (op.space_notMem_opcode c hc).1
  rw [Item.ofText, String.toList_append, String.toList_append, List.append_assoc, List.takeWhile_append_of_pos hopcode,
    List.dropWhile_append_of_pos hopcode]
  simp

theorem Op.written_eq (huses : op.uses = []) (hdefs : op.defs = []) : op.written ρ = (op.opcode, op.operands) := by
  have hargs : List.Forall₂ (fun s a => s = Arg.written ρ a) (openArgs 0 0 op.args) op.args := by
    refine (op.opens_args (o := op.oper) (P := fun _ => True) rfl rfl fun _ _ => trivial).imp fun s a h => ?_
    cases h with
    | written h => simp [oper, hdefs] at h
    | read h => simp [oper, huses] at h
    | _ => rfl
  rw [← List.forall₂_map_right_iff, List.forall₂_eq_eq_eq] at hargs
  rw [written, operands, hargs]

end

section
variable (f : Temp → Temp)

def Reg.rename : Reg → Reg
  | .temp t => .temp (f t)
  | .hard n => .hard n

def Value.rename : Value → Value
  | .reg r => .reg (r.rename f)
  | .imm n => .imm n

def Op.rename : Op → Op
  | .set dst n => .set (dst.rename f) n
  | .inc part dst n => .inc part (dst.rename f) n
  | .neg dst n src => .neg (dst.rename f) n (src.rename f)
  | .alu op dst lhs rhs => .alu op (dst.rename f) (lhs.rename f) (rhs.rename f)
  | .test sign dst src => .test sign (dst.rename f) (src.rename f)
  | .get dst special => .get (dst.rename f) special
  | .put special src => .put special (src.rename f)
  | .address dst label => .address (dst.rename f) label
  | .load dst base offset => .load (dst.rename f) (base.rename f) (offset.rename f)
  | .store src base offset => .store (src.rename f) (base.rename f) (offset.rename f)
  | .branch src yes no => .branch (src.rename f) yes no
  | .jump label => .jump label
  | .call kept label => .call kept label
  | .ret kept => .ret kept

def Op.Arg.rename : Arg → Arg
  | .dst r => .dst (r.rename f)
  | .src r => .src (r.rename f)
  | .text s => .text s

variable {f} {op : Op} {o : Oper}

theorem Op.args_rename : (op.rename f).args = op.args.map (Arg.rename f) := by
  cases op with
  | alu _ _ _ rhs => cases rhs <;> rfl
  | load _ _ offset | store _ _ offset => cases offset <;> rfl
  | _ => rfl

theorem Op.operands_rename : (op.rename f).operands = op.operands := by
  have hopen : ∀ (args : List Arg) (written read : Nat),
      openArgs written read (args.map (Arg.rename f)) = openArgs written read args := by
    intro args
    induction args with
    | nil => exact fun _ _ => rfl
    | cons a args ih =>
      intro written read
      rcases a with (t | n) | (t | n) | s <;> simp [openArgs, Arg.rename, Reg.rename, ih]
  rw [operands, args_rename, hopen, operands]

theorem Op.defs_rename : (op.rename f).defs = op.defs.map f := by
  have harg : ∀ a : Arg, (a.rename f).written? = a.written?.map f := by
    rintro ((t | n) | (t | n) | s) <;> rfl
  have hdefs : ∀ op : Op, op.defs = op.args.filterMap Arg.written? := fun _ => rfl
  rw [hdefs, hdefs, args_rename, List.filterMap_map, List.map_filterMap]
  exact List.filterMap_congr fun a _ => harg a

theorem Op.uses_rename : (op.rename f).uses = op.uses.map f := by
  have harg : ∀ a : Arg, (a.rename f).read? = a.read?.map f := by
    rintro ((t | n) | (t | n) | s) <;> rfl
  have hreads : (op.rename f).args.filterMap Arg.read? = (op.args.filterMap Arg.read?).map f := by
    rw [args_rename, List.filterMap_map, List.map_filterMap]
    exact List.filterMap_congr fun a _ => harg a
  cases op with
  | inc part dst n => cases dst <;> rfl
  | _ => exact hreads

theorem Oper.Spells.rename (h : o.Spells op) (old new : Temp) :
    (o.rename old new).Spells (op.rename fun t => if t = old then new else t) where
  template := by
    rw [Op.operands_rename]
    exact h.template.trans (by cases op <;> rfl)
  uses := by
    rw [Op.uses_rename, ← h.uses]
    rfl
  defs := by
    rw [Op.defs_rename, ← h.defs]
    rfl
  labels := by
    have hlabels := h.labels
    cases op <;> exact hlabels

end

end Mmix

end MmixCompiler
