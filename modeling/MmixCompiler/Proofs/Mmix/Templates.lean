import MmixCompiler.Proofs.Chunk
import MmixCompiler.Proofs.Mmix.Decoding
import MmixCompiler.Proofs.Register.SpillSequence

/-! Templates and what they expand to. The template of an operation expands to its opcode and its operands, with
registers in the places of temporaries, on one line. Moving a temporary to the frame leaves templates as they are,
so every instruction can be written once its temporaries can be. -/

namespace MmixCompiler

open List

namespace Mmix

/-- Text that stands for itself in a template, on one line. -/
def PlainText (s : String) : Prop := ∀ c ∈ s.toList, c ≠ '`' ∧ c ≠ '\n'

instance (s : String) : Decidable (PlainText s) := List.decidableBAll _ s.toList

@[simp] theorem plainText_append {s t : String} : PlainText (s ++ t) ↔ PlainText s ∧ PlainText t := by
  simp only [PlainText, String.toList_append, forall_mem_append]

@[simp] theorem plainText_repr (n : Nat) : PlainText n.repr := by
  intro c hc
  have hdigit := isDigit_of_mem_toString hc
  constructor <;> rintro rfl <;> simp at hdigit

end Mmix

theorem Label.Plain.isNamePart {l : Label} (h : l.Plain) : ∀ c ∈ l.text.toList, Token.isNamePart c := by
  intro c hc
  cases l with
  | named name =>
    rcases mem_append.mp (String.toList_append ▸ hc) with hc | hc
    · exact all_eq_true.mp (show "_".toList.all Token.isNamePart by decide) c hc
    · exact h c hc
  | fresh n =>
    rcases mem_append.mp (String.toList_append ▸ hc) with hc | hc
    · exact all_eq_true.mp (show "L".toList.all Token.isNamePart by decide) c hc
    · have hdigit : Token.isDigit c := Mmix.isDigit_of_mem_toString hc
      simp [Token.isNamePart, hdigit]

namespace Mmix

/-- A part of a template for an operation that reads and writes so many temporaries. -/
def Piece.Within (reads writes : Nat) : Piece → Prop
  | .char c => c ≠ '\n'
  | .read i => i < reads
  | .written i => i < writes
  | .malformed => False

/-- A text that begins with no digit. -/
def Undigited (cs : List Char) : Prop := ∀ c ∈ cs.head?, c.isDigit = false

section
variable {cs rest : List Char} {n : Nat}

theorem pieces_append (h : ∀ c ∈ cs, c ≠ '`') : pieces (cs ++ rest) = cs.map .char ++ pieces rest := by
  induction cs with
  | nil => rfl
  | cons c cs ih =>
    obtain ⟨hc, hcs⟩ := forall_mem_cons.mp h
    rw [cons_append, pieces, ih hcs]
    · rfl
    all_goals simp [hc]

theorem takeWhile_digits (h : Undigited rest) :
    ((toString n).toList ++ rest).takeWhile Char.isDigit = (toString n).toList := by
  rw [takeWhile_append_of_pos fun c hc => isDigit_of_mem_toString hc]
  cases rest with
  | nil => simp
  | cons c rest => simp [h c rfl]

theorem dropWhile_digits (h : Undigited rest) : ((toString n).toList ++ rest).dropWhile Char.isDigit = rest := by
  rw [dropWhile_append_of_pos fun c hc => isDigit_of_mem_toString hc]
  cases rest with
  | nil => rfl
  | cons c rest => simp [h c rfl]

theorem pieces_read (h : Undigited rest) :
    pieces ('`' :: 's' :: ((toString n).toList ++ rest)) = .read n :: pieces rest := by
  rw [pieces, takeWhile_digits h, dropWhile_digits h, decimal_toString]

theorem pieces_written (h : Undigited rest) :
    pieces ('`' :: 'd' :: ((toString n).toList ++ rest)) = .written n :: pieces rest := by
  rw [pieces, takeWhile_digits h, dropWhile_digits h, decimal_toString]

end

/-- The register that an operand names, given those of temporaries. -/
def Reg.number (ρ : Temp → Nat) : Reg → Nat
  | .temp t => ρ t
  | .hard n => n

def Op.Arg.written (ρ : Temp → Nat) : Arg → String
  | .dst r | .src r => "$" ++ toString (r.number ρ)
  | .text s => s

/-- An operation as it is written: its opcode and its operands. -/
def Op.written (ρ : Temp → Nat) (op : Op) : String × String :=
  (op.opcode, ",".intercalate (op.args.map (Arg.written ρ)))

section
variable {o : Oper} {operand : Temp → Except CompileError String} {ρ : Temp → Nat} {cs rest : List Char}
  {s u : String} {n : Nat} {t : Temp}

/-- A part of a template, on one line, and the text that it becomes. -/
def Oper.Expands (o : Oper) (operand : Temp → Except CompileError String) (cs : List Char) (s : String) : Prop :=
  (∀ x ∈ pieces cs, x ≠ .char '\n') ∧ ∃ ss, (pieces cs).mapM (o.piece operand) = .ok ss ∧ String.join ss = s

theorem Oper.Expands.expand (h : o.Expands operand o.template.toList s) : o.expand operand = .ok s := by
  obtain ⟨-, ss, hss, rfl⟩ := h
  exact bind_eq_ok.mpr ⟨ss, hss, rfl⟩

theorem Oper.expands_nil : o.Expands operand [] "" := ⟨by simp [pieces], [], by simp [pieces]; rfl, rfl⟩

theorem Oper.Expands.cons {x : Piece} (hpieces : pieces cs = x :: pieces rest) (hline : x ≠ .char '\n')
    (hx : o.piece operand x = .ok u) (h : o.Expands operand rest s) : o.Expands operand cs (u ++ s) := by
  obtain ⟨hlines, ss, hss, rfl⟩ := h
  refine ⟨hpieces ▸ forall_mem_cons.mpr ⟨hline, hlines⟩, u :: ss, ?_, String.join_cons⟩
  rw [hpieces, mapM_eq_ok]
  exact .cons hx (mapM_eq_ok.mp hss)

theorem Oper.Expands.text (hcs : ∀ c ∈ cs, c ≠ '`' ∧ c ≠ '\n') (h : o.Expands operand rest s) :
    o.Expands operand (cs ++ rest) (.ofList cs ++ s) := by
  induction cs with
  | nil => simpa using h
  | cons c cs ih =>
    obtain ⟨hc, hcs⟩ := forall_mem_cons.mp hcs
    have hpieces : pieces (c :: (cs ++ rest)) = .char c :: pieces (cs ++ rest) := by
      simpa using @pieces_append [c] (cs ++ rest) (by simpa using hc.1)
    have hsplit : String.ofList (c :: cs) = c.toString ++ .ofList cs := by simp
    rw [hsplit, String.append_assoc]
    exact .cons hpieces (by simpa using hc.2) rfl (ih hcs)

theorem Oper.Expands.read (hrest : Undigited rest) (ht : o.uses[n]? = some t) (hu : operand t = .ok u)
    (h : o.Expands operand rest s) : o.Expands operand ('`' :: 's' :: ((toString n).toList ++ rest)) (u ++ s) :=
  .cons (pieces_read hrest) (by simp) (by simp [Oper.piece, Oper.piece.named, ht, hu]) h

theorem Oper.Expands.written (hrest : Undigited rest) (ht : o.defs[n]? = some t) (hu : operand t = .ok u)
    (h : o.Expands operand rest s) : o.Expands operand ('`' :: 'd' :: ((toString n).toList ++ rest)) (u ++ s) :=
  .cons (pieces_written hrest) (by simp) (by simp [Oper.piece, Oper.piece.named, ht, hu]) h

theorem Op.Opens.expands {a : Arg} (h : Opens o PlainText s a) (hcs : Undigited cs)
    (hoperand : ∀ t, t ∈ o.uses ∨ t ∈ o.defs → operand t = .ok ("$" ++ toString (ρ t)))
    (hu : o.Expands operand cs u) : o.Expands operand (s.toList ++ cs) (a.written ρ ++ u) := by
  -- text and machine registers stand for themselves
  have htext : ∀ {s : String}, PlainText s → o.Expands operand (s.toList ++ cs) (s ++ u) := fun hs => by
    simpa using hu.text hs
  cases h with
  | written ht =>
    rw [String.toList_append, append_assoc]
    exact hu.written hcs ht (hoperand _ (.inr (mem_of_getElem? ht)))
  | read ht =>
    rw [String.toList_append, append_assoc]
    exact hu.read hcs ht (hoperand _ (.inl (mem_of_getElem? ht)))
  | target n | source n => exact htext (by simp +decide)
  | text h => exact htext h

theorem Op.expands_args {ss : List String} {args : List Arg} (h : List.Forall₂ (Opens o PlainText) ss args)
    (hoperand : ∀ t, t ∈ o.uses ∨ t ∈ o.defs → operand t = .ok ("$" ++ toString (ρ t))) :
    o.Expands operand (",".intercalate ss).toList (",".intercalate (args.map (Arg.written ρ))) := by
  induction h with
  | nil => exact Oper.expands_nil
  | cons ha hrest ih =>
    cases hrest with
    | nil => simpa using ha.expands (by simp [Undigited]) hoperand Oper.expands_nil
    | cons =>
      have hcomma : o.Expands operand ([','] ++ _) (.ofList [','] ++ _) := ih.text (by simp)
      rw [map_cons, map_cons, String.intercalate_cons_cons, String.intercalate_cons_cons,
        String.append_assoc, String.append_assoc, String.toList_append, String.toList_append]
      exact ha.expands (by simp [Undigited]) hoperand hcomma

end

/-- The template names temporaries that the operation has. -/
def Oper.WellFormed (o : Oper) : Prop :=
  ∀ x ∈ pieces o.template.toList, x.Within o.uses.length o.defs.length

theorem plainText_label {l : Label} (h : l.Plain) : PlainText l.text := by
  intro c hc
  have hpart := h.isNamePart c hc
  constructor <;> rintro rfl <;> exact absurd hpart (by decide)

theorem Op.plainText_arg {op : Op} (h : ∀ l ∈ op.labels, l.Plain) {s : String} (hs : .text s ∈ op.args) :
    PlainText s := by
  obtain ⟨n, rfl⟩ | ⟨special, rfl⟩ | ⟨l, hl, rfl | ⟨n, rfl⟩⟩ := text_cases hs
  · exact plainText_repr n
  · cases special <;> decide
  · exact plainText_label (h l hl)
  · simp +decide

theorem Op.plainText_opcode (op : Op) : PlainText op.opcode := by
  have hall : ∀ s ∈ ["JMP", "LDA", "BNZ", "PUSHJ"] ++ unlabelled, PlainText s := by decide
  exact hall _ op.opcode_mem

/-- The instruction has the template and the temporaries of an operation. -/
structure Oper.Spells (o : Oper) (op : Op) : Prop where
  template : o.template = op.opcode ++ " " ++ op.operands
  uses : o.uses = op.uses
  defs : o.defs = op.defs
  labels : ∀ l ∈ op.labels, l.Plain

section
variable {o : Oper} {op : Op} {operand : Temp → Except CompileError String}

theorem Oper.Expands.wellFormed {s : String} (h : o.Expands operand o.template.toList s) : o.WellFormed := by
  have hnamed : ∀ {ts : List Temp} {i : Nat} {s : String}, Oper.piece.named o operand ts i = .ok s → i < ts.length := by
    intro ts i s hs
    unfold Oper.piece.named at hs
    split at hs
    · next ht => exact (List.getElem?_eq_some_iff.mp ht).1
    · cases hs
  obtain ⟨hline, ss, hss, -⟩ := h
  intro x hx
  obtain ⟨s, -, hpiece⟩ := exists_right_of_forall₂ (mapM_eq_ok.mp hss) hx
  cases x with
  | char c => exact fun heq => hline _ hx (congrArg _ heq)
  | read i | written i => exact hnamed hpiece
  | malformed => cases hpiece

theorem Oper.Spells.expands {ρ : Temp → Nat} (h : o.Spells op)
    (hoperand : ∀ t, t ∈ o.uses ∨ t ∈ o.defs → operand t = .ok ("$" ++ toString (ρ t))) :
    o.Expands operand o.template.toList (op.opcode ++ " " ++ (op.written ρ).2) := by
  have hopcode : PlainText (op.opcode ++ " ") := plainText_append.mpr ⟨op.plainText_opcode, by decide⟩
  have hopens := Op.opens_args h.uses h.defs fun _ => Op.plainText_arg h.labels
  have hall := (Op.expands_args hopens hoperand).text hopcode
  rwa [← String.toList_append, ← Op.operands, ← h.template, String.ofList_toList] at hall

theorem Oper.Spells.wellFormed (h : o.Spells op) : o.WellFormed := by
  have hexpands : o.Expands (fun _ => .ok "$0") _ _ := h.expands (ρ := fun _ => 0) fun _ _ => rfl
  exact hexpands.wellFormed

theorem Op.wellFormed (h : ∀ l ∈ op.labels, l.Plain) : op.oper.WellFormed :=
  Oper.Spells.wellFormed ⟨rfl, rfl, rfl, h⟩

end

theorem Oper.WellFormed.exists_expand {o : Oper} (h : o.WellFormed) {operand : Temp → Except CompileError String}
    (hoperand : ∀ t, t ∈ o.uses ∨ t ∈ o.defs → ∃ s, operand t = .ok s) : ∃ s, o.expand operand = .ok s := by
  have hpiece : ∀ x ∈ pieces o.template.toList, ∃ s, o.piece operand x = .ok s := by
    intro x hx
    have hwithin := h x hx
    cases x with
    | char c => exact ⟨_, rfl⟩
    | read i =>
      obtain ⟨s, hs⟩ := hoperand o.uses[i] (.inl (getElem_mem hwithin))
      exact ⟨s, by simp [Oper.piece, Oper.piece.named, getElem?_eq_getElem hwithin, hs]⟩
    | written i =>
      obtain ⟨s, hs⟩ := hoperand o.defs[i] (.inr (getElem_mem hwithin))
      exact ⟨s, by simp [Oper.piece, Oper.piece.named, getElem?_eq_getElem hwithin, hs]⟩
    | malformed => exact hwithin.elim
  obtain ⟨ss, hss⟩ := exists_mapM_eq_ok hpiece
  exact ⟨_, bind_eq_ok.mpr ⟨ss, hss, rfl⟩⟩

def Instr.WellFormed : Instr → Prop
  | .label _ => True
  | .oper o => o.WellFormed

theorem Oper.WellFormed.rename {o : Oper} (h : o.WellFormed) (old new : Temp) : (o.rename old new).WellFormed := by
  simpa only [Oper.WellFormed, Oper.rename, MmixCompiler.rename, length_map] using h

end Mmix

open Mmix

section
variable {t fp a new : Temp} {distance : Int} {op : Op}

theorem labels_loadConst {r : Reg} {value : Int} (h : op ∈ loadConst r value) : op.labels = [] := by
  obtain ⟨n, -, rfl⟩ | ⟨part, n, -, rfl⟩ | rfl := loadConst_cases h <;> rfl

theorem labels_slotOps (h : op ∈ slotOps a fp distance) : op.labels = [] := by
  rcases mem_append.mp h with h | h
  · exact labels_loadConst h
  · obtain rfl := mem_singleton.mp h
    rfl

theorem labels_access (h : op ∈ fetch new a fp distance ∨ op ∈ keep new a fp distance) : op.labels = [] := by
  rcases mem_access h with h | rfl | rfl
  · exact labels_slotOps h
  · rfl
  · rfl

end

section
variable {r r' : Routine} {s s' : Supply} {ts : List Temp}

/-- Spilling keeps what holds of instructions under any names, if it holds of what reaches a slot. -/
theorem Spills.forall_instrs {P : Instr → Prop} (h : Spills r s ts r' s') (hr : ∀ i ∈ r.instrs, P i)
    (hrename : ∀ {o : Oper} (old new : Temp), P (.oper o) → P (.oper (o.rename old new)))
    (haccess : ∀ {op : Op}, op.labels = [] → P op.instr) : ∀ i ∈ r'.instrs, P i := by
  induction h with
  | nil => exact hr
  | cons _ _ hspill _ ih =>
    refine ih fun i hi => ?_
    obtain ⟨i', hi', block, hrel, hi⟩ := Routine.exists_block hspill hi
    rcases hrel.mem_cases hi with ⟨-, rfl⟩ | ⟨new, -, -, ⟨o, rfl, rfl⟩ | ⟨op, a, -, -, hop, rfl⟩⟩
    · exact hr i hi'
    · exact hrename _ new (hr _ hi')
    · exact haccess (labels_access hop)

/-- Moving temporaries to the frame leaves only templates that name what is there. -/
theorem Spills.wellFormed (h : Spills r s ts r' s') (hr : ∀ i ∈ r.instrs, i.WellFormed) :
    ∀ i ∈ r'.instrs, i.WellFormed :=
  h.forall_instrs hr (fun old new h => Oper.WellFormed.rename h old new) fun hop => Op.wellFormed (by simp [hop])

end

end MmixCompiler
