import MmixCompiler.Mmix.Listing
import MmixCompiler.Proofs.Frame.Regions
import MmixCompiler.Proofs.Mmix.Processor

/-! Where control comes to a routine and where it leaves. The prologue makes the frame below the stack pointer and
saves two words in it; the epilogue gets them back. -/

namespace MmixCompiler

open Mmix

namespace Routine

variable (r : Routine)

/-- Where the frame pointer of the caller is saved. -/
def savedPointer : Region := .word (-r.frame.locals - Word.size)

/-- Where the return address is saved. -/
def savedAddress : Region := .word (-r.frame.locals - 2 * Word.size)

/-- The area for arguments of calls, at the stack pointer. -/
def outgoing : Region := ⟨-r.stackBytes, r.frame.args⟩

end Routine

/-- What a routine does to the stack. -/
structure Routine.Links (r : Routine) (kept : Nat) : Prop where
  /-- The prologue leaves the frame pointer where the stack pointer was, and the stack pointer where the area for
  arguments begins. It saves the frame pointer and the return address of the caller, and writes nothing else. -/
  prologue : r.prologue.getLast? = some (.jump r.entry) ∧ ∀ w c, ∃ c', execAll w r.prologue.dropLast c = some c' ∧
    c'.regs .fp = c.regs .sp ∧ c'.regs .sp = c'.regs .fp + .ofInt 64 r.outgoing.offset ∧
    c'.mem (r.savedPointer.first (c'.regs .fp)) = c.regs .fp ∧
    c'.mem (r.savedAddress.first (c'.regs .fp)) = c.specials .returnAddress ∧
    ∀ x ∉ [r.savedPointer.first (c'.regs .fp), r.savedAddress.first (c'.regs .fp)], c'.mem x = c.mem x
  /-- The epilogue leaves the stack pointer where the frame pointer was, and reads what was saved. -/
  epilogue : (r.epilogue kept).getLast? = some (.ret kept) ∧ ∀ w c, ∃ c',
    execAll w (r.epilogue kept).dropLast c = some c' ∧
    c'.regs .sp = c.regs .fp ∧ c'.regs .fp = c.mem (r.savedPointer.first (c.regs .fp)) ∧
    c'.specials .returnAddress = c.mem (r.savedAddress.first (c.regs .fp)) ∧ c'.mem = c.mem

namespace Routine

variable (r : Routine)

theorem first_savedPointer (fp : Octa) : r.savedPointer.first fp = slot fp (r.frame.locals + 8) := by
  rw [savedPointer, Region.first_word, Word.size, Int.sub_eq_add_neg, Int.neg_add, Int.neg_neg, Int.neg_neg]

theorem first_savedAddress (fp : Octa) : r.savedAddress.first fp = slot fp (r.frame.locals + 8 + 8) := by
  rw [savedAddress, Region.first_word, Word.size]
  congr 1
  omega

theorem slot_add_word (fp : Octa) (distance : Int) :
    slot fp (distance + 8) = cell (fp - .ofInt 64 distance - 8#64) := by
  have hoffset : fp - (.ofInt 64 distance + 8#64) = fp - .ofInt 64 distance - 8#64 := by grind
  rw [slot, BitVec.ofInt_add, show BitVec.ofInt 64 8 = 8#64 from rfl, hoffset]

theorem execAll_prologue (w : World) (c : Core) : ∃ c', execAll w r.prologue.dropLast c = some c' ∧
    c'.regs .fp = c.regs .sp ∧ c'.regs .sp = c.regs .sp - .ofInt 64 r.stackBytes ∧
    c'.mem = (c.mem.set (slot (c.regs .sp) (r.frame.locals + 8)) (c.regs .fp)).set
      (slot (c.regs .sp) (r.frame.locals + 8 + 8)) (c.specials .returnAddress) := by
  rw [slot_add_word _ (r.frame.locals + 8), slot, prologue, List.dropLast_append_of_ne_nil (by simp)]
  refine ⟨_, by
    simp only [List.dropLast, execAll_append, execAll_loadConst, Option.bind_some, execAll, Op.exec]
    rfl, ?_⟩
  simp [Value.word, Alu.word, Reg.sp, Reg.fp, Word.size]

theorem execAll_epilogue (kept : Nat) (w : World) (c : Core) : ∃ c', execAll w (r.epilogue kept).dropLast c = some c' ∧
    c'.regs .sp = c.regs .fp ∧ c'.regs .fp = c.mem (slot (c.regs .fp) (r.frame.locals + 8)) ∧
    c'.specials .returnAddress = c.mem (slot (c.regs .fp) (r.frame.locals + 8 + 8)) ∧ c'.mem = c.mem := by
  rw [slot_add_word _ (r.frame.locals + 8), slot, epilogue, List.dropLast_append_of_ne_nil (by simp)]
  refine ⟨_, by
    simp only [List.dropLast, execAll_append, execAll_loadConst, Option.bind_some, execAll, Op.exec]
    rfl, ?_⟩
  simp [Value.word, Alu.word, Reg.sp, Reg.fp, Word.size]

theorem links (kept : Nat) : r.Links kept := by
  refine ⟨⟨List.getLast?_append_of_ne_nil _ (by simp), fun w c => ?_⟩,
    ⟨List.getLast?_append_of_ne_nil _ (by simp), fun w c => ?_⟩⟩
  · obtain ⟨c', hexec, hfp, hsp, hmem⟩ := r.execAll_prologue w c
    have hne : slot (c.regs .sp) (r.frame.locals + 8 + 8) ≠ slot (c.regs .sp) (r.frame.locals + 8) :=
      slot_ne (n := 1) (by decide) (by decide)
    refine ⟨c', hexec, hfp, ?_, ?_⟩
    · rw [hsp, hfp, outgoing, BitVec.ofInt_neg, BitVec.sub_eq_add_neg]
    · rw [hfp, hmem, first_savedPointer, first_savedAddress]
      refine ⟨?_, ?_, fun x hx => ?_⟩
      · rw [Memory.set, if_neg hne.symm, Memory.set, if_pos rfl]
      · rw [Memory.set, if_pos rfl]
      · simp only [List.mem_cons, List.not_mem_nil, or_false, not_or] at hx
        rw [Memory.set, if_neg hx.2, Memory.set, if_neg hx.1]
  · rw [first_savedPointer, first_savedAddress]
    exact r.execAll_epilogue kept w c

end Routine

end MmixCompiler
