import MmixCompiler.Proofs.Mmix.ConstantFolding
import MmixCompiler.Proofs.Mmix.Emission

/-! Loading constants. Every word is built from its sixteen-bit parts, whatever the register held before, and the lines
that load it into a register are the same before and after temporaries have registers. -/

namespace MmixCompiler.Mmix

/-- The word that an operation leaves in a temporary depends on the word that was there. -/
def Op.DependsOn (w : World) (op : Op) (t : Temp) : Prop :=
  ∃ (c : Core) (x : Octa), (op.exec w (c.set (.temp t) x)).map (fun d => d.1.regs (.temp t)) ≠
    (op.exec w c).map fun d => d.1.regs (.temp t)

/-- The numbers that are written in an operation. -/
def Op.immediates : Op → List Nat
  | .set _ n | .inc _ _ n | .neg _ n _ => [n]
  | .alu _ _ _ (.imm n) | .load _ _ (.imm n) | .store _ _ (.imm n) => [n]
  | _ => []

/-- The lines that load a constant into a register: a line for each part, and one to negate. -/
def loadItems (r : Nat) (v : Int) : List Item :=
  ([("SETL", 0), ("INCML", 16), ("INCMH", 32), ("INCH", 48)].map fun x =>
    .op x.1 (",".intercalate ["$" ++ toString r, toString (wyde v.natAbs x.2)])) ++
  if v < 0 then [.op "NEG" (",".intercalate ["$" ++ toString r, "0", "$" ++ toString r])] else []

section
variable {w : World} {t : Temp} {v : Int} {op : Op}

/-- What an operation uses when a constant is loaded is what it depends on. -/
theorem mem_uses_loadConst (h : op ∈ loadConst (.temp t) v) : t ∈ op.instr.uses ↔ op.DependsOn w t := by
  let zero : Core := ⟨fun _ => 0, fun _ => 0, fun _ => 0⟩
  obtain ⟨n, -, rfl⟩ | ⟨part, n, -, rfl⟩ | rfl := loadConst_cases h
  · simp [Op.instr, Instr.uses, Op.uses, Op.args, Op.DependsOn, Op.exec]
  · refine iff_of_true (by simp [Op.instr, Instr.uses, Op.uses, Reg.temp?]) ⟨zero, 1, ?_⟩
    simp [Op.exec, zero]
  · refine iff_of_true (by simp [Op.instr, Instr.uses, Op.uses, Op.args, Reg.temp?]) ⟨zero, 1, ?_⟩
    simp [Op.exec, zero]

theorem lt_of_mem_immediates {r : Reg} (h : op ∈ loadConst r v) {n : Nat} (hn : n ∈ op.immediates) : n < 2 ^ 16 := by
  obtain ⟨m, hm, rfl⟩ | ⟨part, m, hm, rfl⟩ | rfl := loadConst_cases h
  · exact List.mem_singleton.mp hn ▸ hm
  · exact List.mem_singleton.mp hn ▸ hm
  · exact List.mem_singleton.mp hn ▸ by decide

theorem map_written_loadConst {ρ : Temp → Nat} {q : Reg} :
    (loadConst q v).map (fun op => Item.op op.opcode (op.written ρ).2) = loadItems (q.number ρ) v := by
  unfold loadConst loadItems
  split
  · have hzero : "0" = Nat.repr 0 := by decide
    simp [Op.written, Op.opcode, Op.args, Op.Arg.written, Part.text, hzero]
  · simp [Op.written, Op.opcode, Op.args, Op.Arg.written, Part.text]

end

/-- Constants are built correctly. Loading a value that fits a word leaves it in the temporary, whatever was there, and
changes nothing else; an operation uses the temporary if and only if what it leaves there depends on what was there; and
numbers have sixteen bits. Once the temporary has a register, the lines are those that load the value into a register
of the machine. -/
theorem loadConst_exact (w : World) (c : Core) {t fp : Temp} {v : Int} {regs : Registers} {r : Nat} (hv : Word.Fits v)
    (hfp : t ≠ fp) (hr : regs[t]? = some r) :
    execAll w (loadConst (.temp t) v) c = some (c.set (.temp t) (.ofInt 64 v)) ∧ (BitVec.ofInt 64 v).toInt = v ∧
    (∀ op ∈ loadConst (.temp t) v, (t ∈ op.instr.uses ↔ op.DependsOn w t) ∧ ∀ n ∈ op.immediates, n < 2 ^ 16) ∧
    (loadConst (.temp t) v).mapM (fun op => Routine.item fp regs op.instr) = .ok (loadItems r v) ∧
    (loadConst (.hard r) v).map Item.ofOp = loadItems r v := by
  refine ⟨execAll_loadConst .., toInt_ofInt_of_fits hv,
    fun op hop => ⟨mem_uses_loadConst hop, fun n => lt_of_mem_immediates hop⟩, ?_, ?_⟩
  · have hnumber : (Reg.temp t).number (regs.number fp) = r := by
      simp [Reg.number, Registers.number, hfp, Std.TreeMap.getD_eq_getD_getElem?, hr]
    rw [← hnumber, ← map_written_loadConst, mapM_eq_ok, List.forall₂_map_right_iff, List.forall₂_same]
    intro op hop
    have hlabels : op.labels = [] := labels_loadConst hop
    refine Oper.Spells.item_eq (Op.spells_instr (by simp [hlabels])) ?_
    intro u hu _
    obtain rfl : u = t := by
      obtain ⟨n, -, rfl⟩ | ⟨part, n, -, rfl⟩ | rfl := loadConst_cases hop <;>
        simpa [Op.uses, Op.defs, Op.args, Reg.temp?] using hu
    exact Std.TreeMap.mem_iff_isSome_getElem?.mpr (by simp [hr])
  · have hlines := map_written_loadConst (ρ := fun _ => 0) (q := .hard r) (v := v)
    rw [Reg.number] at hlines
    rw [← hlines]
    refine List.map_congr_left fun op hop => ?_
    obtain ⟨n, -, rfl⟩ | ⟨part, n, -, rfl⟩ | rfl := loadConst_cases hop <;> rfl

/-- The least word, whose magnitude is no word, is loaded where another word was. -/
theorem loadConst_least : (execAll ⟨fun _ => 0, fun _ _ m => (m, fun _ => 0)⟩ (loadConst (.temp 3) Word.least)
      ⟨fun _ => 5, fun _ => 0, fun _ => 0⟩).map (fun c => (c.regs (.temp 3)).toInt) = some Word.least ∧
    (loadConst (.temp 3) Word.least).mapM (fun op => Routine.item 0 (.ofList [(3, 7)]) op.instr) = .ok
      [.op "SETL" "$7,0", .op "INCML" "$7,0", .op "INCMH" "$7,0", .op "INCH" "$7,32768", .op "NEG" "$7,0,$7"] := by
  obtain ⟨hexec, hvalue, -, hitems, -⟩ := @loadConst_exact ⟨fun _ => 0, fun _ _ m => (m, fun _ => 0)⟩
    ⟨fun _ => 5, fun _ => 0, fun _ => 0⟩ 3 0 Word.least (.ofList [(3, 7)]) 7 (by decide) (by decide) (by decide)
  refine ⟨?_, hitems⟩
  rw [hexec, Option.map_some]
  exact congrArg some hvalue

end MmixCompiler.Mmix
