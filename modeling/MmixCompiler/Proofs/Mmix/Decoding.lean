import MmixCompiler.Proofs.Except
import MmixCompiler.Proofs.Mmix.Processor

/-! Instructions read back as operations. A template is split into an opcode and operands, and the open
operands take the temporaries that the instruction names. What is read is the operation that the
instruction was made for, so instructions run like operations. -/

namespace MmixCompiler.Mmix

open List

theorem toList_toString (n : Nat) : (toString n).toList = Nat.toDigits 10 n := by
  rw [Nat.toString_eq_ofList_toDigits, String.toList_ofList]

theorem isDigit_of_mem_toString {n : Nat} {c : Char} (h : c ∈ (toString n).toList) : c.isDigit := by
  rw [toList_toString] at h
  exact Nat.isDigit_of_mem_toDigits (by decide) (by decide) h

theorem decimal_toString (n : Nat) : Text.decimal (toString n).toList = n := by
  rw [toList_toString, Text.decimal]
  simpa only [Nat.ofDigitChars_eq_foldl, Nat.mul_comm] using Nat.ofDigitChars_ten_toDigits (n := n)

inductive Operand where
  | reg (r : Reg)
  | num (value : Nat)
  | name (text : String)

def Operand.ofChars (cs : List Char) : Operand :=
  if cs.all Char.isDigit then .num (Text.decimal cs) else .name (.ofList cs)

/-- The operand of a text. A backquote stands for a temporary, by its number among those of the
instruction. -/
def Oper.operand? (o : Oper) : List Char → Option Operand
  | '`' :: 's' :: digits => o.uses[Text.decimal digits]?.map fun t => .reg (.temp t)
  | '`' :: 'd' :: digits => o.defs[Text.decimal digits]?.map fun t => .reg (.temp t)
  | '$' :: digits => some (.reg (.hard (Text.decimal digits)))
  | cs => some (.ofChars cs)

/-- The last operand of an operation: a register, or a constant of eight bits. -/
def Operand.value? : Operand → Option Value
  | .reg r => some (.reg r)
  | .num n => if n < 256 then some (.imm n) else none
  | .name _ => none

def Sign.ofText? : String → Option Sign
  | "ZSZ" => some .zero
  | "ZSNZ" => some .nonzero
  | "ZSN" => some .negative
  | "ZSP" => some .positive
  | "ZSNP" => some .nonpositive
  | "ZSNN" => some .nonnegative
  | _ => none

def Op.ofValue? (opcode : String) (x y : Reg) (v : Value) : Option Op :=
  match opcode with
  | "OR" => some (.alu .or x y v)
  | "XOR" => some (.alu .xor x y v)
  | "AND" => some (.alu .and x y v)
  | "ADD" => some (.alu .add x y v)
  | "SUB" => some (.alu .sub x y v)
  | "MUL" => some (.alu .mul x y v)
  | "DIV" => some (.alu .div x y v)
  | "CMP" => some (.alu .cmp x y v)
  | "LDO" => some (.load x y v)
  | "STO" => some (.store x y v)
  | _ => if v = .imm 1 then (Sign.ofText? opcode).map (.test · x y) else none

/-- The operation with an opcode and operands, for those without a label. -/
def Op.ofOperands? (opcode : String) : List Operand → Option Op
  | [.reg x, .num n] =>
    if n < 65536 then
      match opcode with
      | "SETL" => some (.set x n)
      | "INCML" => some (.inc .mediumLow x n)
      | "INCMH" => some (.inc .mediumHigh x n)
      | "INCH" => some (.inc .high x n)
      | _ => none
    else none
  | [.reg x, .num n, .reg y] => if opcode = "NEG" ∧ n < 256 then some (.neg x n y) else none
  | [.reg x, .reg y, z] => z.value?.bind (Op.ofValue? opcode x y)
  | [.reg x, .name s] =>
    if opcode ≠ "GET" then none
    else if s = "rR" then some (.get x .remainder)
    else if s = "rJ" then some (.get x .returnAddress)
    else none
  | [.name s, .reg x] =>
    if opcode ≠ "PUT" then none
    else if s = "rR" then some (.put .remainder x)
    else if s = "rJ" then some (.put .returnAddress x)
    else none
  | [.num n, .num 0] => if opcode = "POP" then some (.ret n) else none
  | _ => none

def labelOfChars : List Char → Label
  | 'L' :: digits => .fresh (Text.decimal digits)
  | cs => .named (.ofList (cs.drop 1))

/-- The operation with an opcode, one operand and a label. Where a branch does not go is told by the
instruction's jumps. -/
def Oper.ofLabel? (o : Oper) (opcode : String) (l : Label) : Operand → Option Op
  | .reg x =>
    match opcode, x with
    | "LDA", x => some (.address x l)
    | "BNZ", x => some (.branch x l (o.jumps.headD l))
    | "PUSHJ", .hard kept => some (.call kept l)
    | _, _ => none
  | _ => none

/-- The operation with an opcode and a text of operands. A label is the last of them. -/
def Oper.read? (o : Oper) (opcode : String) (cs : List Char) : Option Op :=
  if opcode = "JMP" then some (.jump (labelOfChars cs))
  else if opcode ∈ ["LDA", "BNZ", "PUSHJ"] then
    (o.operand? (cs.takeWhile (· ≠ ','))).bind
      (o.ofLabel? opcode (labelOfChars ((cs.dropWhile (· ≠ ',')).drop 1)))
  else ((cs.splitOn ',').mapM o.operand?).bind (Op.ofOperands? opcode)

/-- The operation of an instruction. A blank ends the opcode. -/
def Oper.op? (o : Oper) : Option Op :=
  o.read? (.ofList (o.template.toList.takeWhile (· ≠ ' ')))
    ((o.template.toList.dropWhile (· ≠ ' ')).drop 1)

/-- A value fits where a constant of eight bits can stand. -/
def Value.Fits : Value → Prop
  | .reg _ => True
  | .imm n => n < 256

/-- The constants of an operation fit into its instruction. -/
def Op.Fits : Op → Prop
  | .set _ n | .inc _ _ n => n < 65536
  | .neg _ n _ => n < 256
  | .alu _ _ _ v | .load _ _ v | .store _ _ v => v.Fits
  | _ => True

/-- One step of code, with every instruction run as the operation that it reads as. -/
def stepInstr (w : World) (code : List Instr) (at_ : Nat × Core) : Option (Nat × Core) :=
  match code[at_.1]? with
  | none => none
  | some (.label _) => some (at_.1 + 1, at_.2)
  | some (.oper o) =>
    match o.op?.bind (Op.exec w at_.2) with
    | none => none
    | some (c, none) => some (at_.1 + 1, c)
    | some (c, some l) => (labelIndex? code l).map (·, c)

/-- Running instructions leads from one place and state to another. -/
def Executes (w : World) (code : List Instr) : Nat × Core → Nat × Core → Prop :=
  Relation.ReflTransGen fun a b => stepInstr w code a = some b

section
variable {o : Oper} {op : Op} {n : Nat} {s : String}

theorem labelOfChars_text (l : Label) : labelOfChars l.text.toList = l := by
  cases l with
  | named name => simp [Label.text, labelOfChars]
  | fresh n =>
    have hdigits := decimal_toString n
    simp_all [Label.text, labelOfChars]

theorem Operand.ofChars_toString (n : Nat) : Operand.ofChars (toString n).toList = .num n := by
  have hdigits : (toString n).toList.all Char.isDigit := all_eq_true.mpr fun c => isDigit_of_mem_toString
  rw [ofChars, if_pos hdigits, decimal_toString]

/-- A text without commas that is the text of an operand. -/
structure Oper.Spelled (o : Oper) (s : String) (a : Operand) : Prop where
  read : o.operand? s.toList = some a
  comma : ',' ∉ s.toList

theorem comma_notMem_toString (n : Nat) : ',' ∉ (toString n).toList := fun h => by
  have hdigit := isDigit_of_mem_toString h
  cases hdigit

theorem Oper.spelled_num (o : Oper) (n : Nat) : o.Spelled (toString n) (.num n) where
  comma := comma_notMem_toString n
  read := by
    have hdigits : ∀ c ∈ (toString n).toList, c.isDigit := fun c => isDigit_of_mem_toString
    rw [← Operand.ofChars_toString n]
    unfold operand?
    split
    · next heq => exact absurd (hdigits '`' (heq ▸ mem_cons_self)) (by decide)
    · next heq => exact absurd (hdigits '`' (heq ▸ mem_cons_self)) (by decide)
    · next heq => exact absurd (hdigits '$' (heq ▸ mem_cons_self)) (by decide)
    · rfl

theorem Oper.spelled_hard (o : Oper) (n : Nat) : o.Spelled ("$" ++ toString n) (.reg (.hard n)) where
  comma := by simpa using comma_notMem_toString n
  read := by
    rw [String.toList_append]
    exact congrArg (fun n => some (Operand.reg (.hard n))) (decimal_toString n)

theorem Oper.spelled_read {t : Temp} (h : o.uses[n]? = some t) : o.Spelled ("`s" ++ toString n) (.reg (.temp t)) where
  comma := by simpa using comma_notMem_toString n
  read := by
    rw [String.toList_append]
    change o.uses[Text.decimal (toString n).toList]?.map _ = _
    rw [decimal_toString, h]
    rfl

theorem Oper.spelled_written {t : Temp} (h : o.defs[n]? = some t) :
    o.Spelled ("`d" ++ toString n) (.reg (.temp t)) where
  comma := by simpa using comma_notMem_toString n
  read := by
    rw [String.toList_append]
    change o.defs[Text.decimal (toString n).toList]?.map _ = _
    rw [decimal_toString, h]
    rfl

namespace Op

def Arg.read? : Arg → Option Temp
  | .src r => r.temp?
  | _ => none

def Arg.written? : Arg → Option Temp
  | .dst r => r.temp?
  | _ => none

/-- The operand that an argument stands for. -/
def Arg.operand : Arg → Operand
  | .dst r | .src r => .reg r
  | .text s => .ofChars s.toList

/-- An operand with its temporary left open, and the argument that it stands for. -/
inductive Opens (o : Oper) (P : String → Prop) : String → Arg → Prop where
  | written {n : Nat} {t : Temp} (h : o.defs[n]? = some t) : Opens o P ("`d" ++ toString n) (.dst (.temp t))
  | read {n : Nat} {t : Temp} (h : o.uses[n]? = some t) : Opens o P ("`s" ++ toString n) (.src (.temp t))
  | target (n : Nat) : Opens o P ("$" ++ toString n) (.dst (.hard n))
  | source (n : Nat) : Opens o P ("$" ++ toString n) (.src (.hard n))
  | text {s : String} (h : P s) : Opens o P s (.text s)

theorem opens_openArgs {P : String → Prop} {args : List Arg} (htext : ∀ s, .text s ∈ args → P s) {written read : Nat}
    (hreads : ∀ k t, (args.filterMap Arg.read?)[k]? = some t → o.uses[read + k]? = some t)
    (hwrites : ∀ k t, (args.filterMap Arg.written?)[k]? = some t → o.defs[written + k]? = some t) :
    List.Forall₂ (Opens o P) (openArgs written read args) args := by
  induction args generalizing written read with
  | nil => exact .nil
  | cons a args ih =>
    have htext' := fun s hs => htext s (mem_cons_of_mem a hs)
    rcases a with (t | n) | (t | n) | s
    · refine .cons (.written (hwrites 0 t rfl)) (ih htext' hreads fun k u hk => ?_)
      rw [Nat.add_assoc, Nat.add_comm 1 k]
      exact hwrites (k + 1) u hk
    · exact .cons (.target n) (ih htext' hreads hwrites)
    · refine .cons (.read (hreads 0 t rfl)) (ih htext' (fun k u hk => ?_) hwrites)
      rw [Nat.add_assoc, Nat.add_comm 1 k]
      exact hreads (k + 1) u hk
    · exact .cons (.source n) (ih htext' hreads hwrites)
    · exact .cons (.text (htext s mem_cons_self)) (ih htext' hreads hwrites)

/-- Open operands are those of the arguments, if the instruction has their temporaries. -/
theorem opens_args {P : String → Prop} (huses : o.uses = op.uses) (hdefs : o.defs = op.defs)
    (htext : ∀ s, .text s ∈ op.args → P s) : List.Forall₂ (Opens o P) (openArgs 0 0 op.args) op.args := by
  refine opens_openArgs htext (fun k t hk => ?_) (fun k t hk => ?_)
  · rw [huses, Nat.zero_add]
    cases op with
    | inc => cases hk
    | _ => exact hk
  · rw [hdefs, Nat.zero_add]
    exact hk

theorem Opens.spelled {a : Arg} (h : Opens o (fun s => o.Spelled s (.ofChars s.toList)) s a) :
    o.Spelled s a.operand := by
  cases h with
  | written h => exact Oper.spelled_written h
  | read h => exact Oper.spelled_read h
  | target n | source n => exact o.spelled_hard n
  | text h => exact h

def labels : Op → List Label
  | .address _ l | .branch _ l _ | .jump l | .call _ l => [l]
  | _ => []

/-- The opcodes of operations that name no label. -/
def unlabelled : List String :=
  ["SETL", "INCML", "INCMH", "INCH", "NEG", "OR", "XOR", "AND", "ADD", "SUB", "MUL", "DIV", "CMP", "ZSZ", "ZSNZ",
    "ZSN", "ZSP", "ZSNP", "ZSNN", "GET", "PUT", "LDO", "STO", "POP"]

theorem opcode_mem_unlabelled (h : op.labels = []) : op.opcode ∈ unlabelled := by
  cases op with
  | address | branch | jump | call => cases h
  | alu op => cases op <;> simp [opcode, Alu.text, unlabelled]
  | inc part => cases part <;> simp [opcode, Part.text, unlabelled]
  | test sign => cases sign <;> simp [opcode, Sign.text, unlabelled]
  | _ => simp [opcode, unlabelled]

theorem opcode_mem (op : Op) : op.opcode ∈ ["JMP", "LDA", "BNZ", "PUSHJ"] ++ unlabelled := by
  cases op with
  | address | branch | jump | call => simp [opcode]
  | _ => exact mem_append_right _ (opcode_mem_unlabelled rfl)

theorem space_notMem_opcode (op : Op) : ∀ c ∈ op.opcode.toList, c ≠ ' ' ∧ c ≠ '\t' := by
  have hall : ∀ s ∈ ["JMP", "LDA", "BNZ", "PUSHJ"] ++ unlabelled, ' ' ∉ s.toList ∧ '\t' ∉ s.toList := by decide
  obtain ⟨hspace, htab⟩ := hall _ op.opcode_mem
  exact fun c hc => ⟨fun heq => hspace (heq ▸ hc), fun heq => htab (heq ▸ hc)⟩

/-- The texts among arguments: numbers, special registers, and what an operation with a label has. -/
theorem text_cases (h : .text s ∈ op.args) : (∃ n : Nat, s = toString n) ∨ (∃ special : Special, s = special.text) ∨
    ∃ l ∈ op.labels, s = l.text ∨ ∃ n : Nat, s = "$" ++ toString n := by
  cases op with
  | set _ n | inc _ _ n | neg _ n => exact .inl ⟨n, by simpa [args] using h⟩
  | alu _ _ _ v | load _ _ v | store _ _ v =>
    cases v with
    | reg r => simp [args, Arg.ofValue] at h
    | imm n => exact .inl ⟨n, by simpa [args, Arg.ofValue] using h⟩
  | test => exact .inl ⟨1, (by simpa [args] using h : s = "1")⟩
  | get _ special | put special => exact .inr (.inl ⟨special, by simpa [args] using h⟩)
  | address _ l | branch _ l | jump l => exact .inr (.inr ⟨l, mem_cons_self, .inl (by simpa [args] using h)⟩)
  | call kept l =>
    refine .inr (.inr ⟨l, mem_cons_self, ?_⟩)
    obtain h | h : s = "$" ++ toString kept ∨ s = l.text := by simpa [args] using h
    · exact .inr ⟨kept, h⟩
    · exact .inl h
  | ret kept =>
    obtain h | h : s = toString kept ∨ s = "0" := by simpa [args] using h
    · exact .inl ⟨kept, h⟩
    · exact .inl ⟨0, h⟩

theorem spelled_text (o : Oper) (h : op.labels = []) (hs : .text s ∈ op.args) : o.Spelled s (.ofChars s.toList) := by
  obtain ⟨n, rfl⟩ | ⟨special, rfl⟩ | ⟨l, hl, -⟩ := text_cases hs
  · rw [Operand.ofChars_toString]
    exact o.spelled_num n
  · cases special <;> exact ⟨rfl, by decide⟩
  · cases h ▸ hl

theorem ofOperands?_value {opcode : String} {x y : Reg} {v : Value} (hv : v.Fits)
    (h : ofValue? opcode x y v = some op) : ofOperands? opcode [.reg x, .reg y, (Arg.ofValue v).operand] = some op := by
  cases v with
  | reg r => exact h
  | imm n =>
    have hvalue : (Operand.num n).value? = some (.imm n) := if_pos hv
    rw [Arg.ofValue, Arg.operand, Operand.ofChars_toString, ofOperands?, hvalue]
    exact h

theorem ofOperands?_args (h : op.labels = []) (hfits : op.Fits) :
    ofOperands? op.opcode (op.args.map Arg.operand) = some op := by
  cases op with
  | address | branch | jump | call => cases h
  | set _ n =>
    simp only [args, map_cons, map_nil, Arg.operand, Operand.ofChars_toString]
    exact if_pos hfits
  | inc part _ n =>
    simp only [args, map_cons, map_nil, Arg.operand, Operand.ofChars_toString]
    cases part <;> exact if_pos hfits
  | neg _ n =>
    simp only [args, map_cons, map_nil, Arg.operand, Operand.ofChars_toString]
    exact if_pos ⟨rfl, hfits⟩
  | alu op x y v =>
    have hop : ofValue? (alu op x y v).opcode x y v = some (alu op x y v) := by cases op <;> rfl
    exact ofOperands?_value hfits hop
  | load x y v | store x y v => exact ofOperands?_value hfits rfl
  | test sign => cases sign <;> rfl
  | get _ special | put special => cases special <;> rfl
  | ret kept =>
    simp only [args, map_cons, map_nil, Arg.operand, Operand.ofChars_toString]
    rfl

end Op

/-- The instruction names the temporaries of an operation, and a branch's jumps begin with the label that
comes next. -/
structure Oper.Names (o : Oper) (op : Op) : Prop where
  uses : o.uses = op.uses
  defs : o.defs = op.defs
  jumps : ∀ x yes no, op = .branch x yes no → o.jumps.headD yes = no

theorem mapM_operand? {ss : List String} {as : List Operand} (h : List.Forall₂ o.Spelled ss as) :
    (ss.map String.toList).mapM o.operand? = some as := by
  induction h with
  | nil => rfl
  | cons ha _ ih => simp [ha.read, ih]

/-- The label comes after the first comma. -/
theorem Oper.read?_label {opcode : String} {a : Operand} (hop : opcode ∈ ["LDA", "BNZ", "PUSHJ"])
    (ha : o.Spelled s a) (l : Label) : o.read? opcode (",".intercalate [s, l.text]).toList = o.ofLabel? opcode l a := by
  have hne : opcode ≠ "JMP" := by
    rintro rfl
    simp at hop
  have hcomma : ∀ c ∈ s.toList, decide (c ≠ ',') := fun c hc => by
    refine decide_eq_true fun heq => ha.comma ?_
    rwa [heq] at hc
  have hsplit : (",".intercalate [s, l.text]).toList = s.toList ++ ',' :: l.text.toList := by simp
  rw [read?, if_neg hne, if_pos hop, hsplit, takeWhile_append_of_pos hcomma,
    dropWhile_append_of_pos hcomma]
  simp [ha.read, labelOfChars_text]

theorem Oper.Names.read?_unlabelled (h : o.Names op) (hfits : op.Fits) (hlabels : op.labels = []) :
    o.read? op.opcode op.operands.toList = some op := by
  have hspelled : List.Forall₂ o.Spelled (Op.openArgs 0 0 op.args) (op.args.map Op.Arg.operand) :=
    forall₂_map_right_iff.mpr <|
      (Op.opens_args h.uses h.defs fun _ => Op.spelled_text o hlabels).imp fun _ _ h => h.spelled
  have hop : ∀ s ∈ Op.unlabelled, s ≠ "JMP" ∧ s ∉ ["LDA", "BNZ", "PUSHJ"] := by decide
  obtain ⟨hjump, hlabel⟩ := hop _ (Op.opcode_mem_unlabelled hlabels)
  have hsplit : op.operands.toList.splitOn ',' = (Op.openArgs 0 0 op.args).map String.toList := by
    rw [Op.operands, String.toList_intercalate]
    refine splitOn_intercalate _ ?_ ?_
    · intro l hl
      obtain ⟨s, hs, rfl⟩ := mem_map.mp hl
      obtain ⟨a, -, ha⟩ := exists_right_of_forall₂ hspelled hs
      exact ha.comma
    · intro hnil
      have hread := Op.ofOperands?_args hlabels hfits
      rw [map_eq_nil_iff.mp hnil] at hspelled
      rw [forall₂_nil_left_iff.mp hspelled] at hread
      cases hread
  rw [read?, if_neg hjump, if_neg hlabel, hsplit, mapM_operand? hspelled]
  exact Op.ofOperands?_args hlabels hfits

theorem Oper.Names.read?_eq (h : o.Names op) (hfits : op.Fits) : o.read? op.opcode op.operands.toList = some op := by
  cases op with
  | jump l =>
    have hoperands : (Op.jump l).operands = l.text := String.intercalate_singleton
    rw [hoperands]
    exact congrArg (some ∘ Op.jump) (labelOfChars_text l)
  | address x l =>
    cases x with
    | temp t => exact read?_label (by simp [Op.opcode]) (spelled_written (n := 0) (by rw [h.defs]; rfl)) l
    | hard n => exact read?_label (by simp [Op.opcode]) (o.spelled_hard n) l
  | branch x yes no =>
    have hno := congrArg (fun l => some (Op.branch x yes l)) (h.jumps x yes no rfl)
    cases x with
    | temp t => exact (read?_label (by simp [Op.opcode]) (spelled_read (n := 0) (by rw [h.uses]; rfl)) yes).trans hno
    | hard n => exact (read?_label (by simp [Op.opcode]) (o.spelled_hard n) yes).trans hno
  | call kept l => exact read?_label (by simp [Op.opcode]) (o.spelled_hard kept) l
  | _ => exact h.read?_unlabelled hfits rfl

/-- What an instruction was made for is what it reads as. -/
theorem Op.op?_oper (hfits : op.Fits) : op.oper.op? = some op := by
  have hnames : op.oper.Names op := ⟨rfl, rfl, by rintro x yes no rfl; rfl⟩
  have hopcode : ∀ c ∈ op.opcode.toList, decide (c ≠ ' ') := fun c hc =>
    decide_eq_true (op.space_notMem_opcode c hc).1
  have htemplate : op.oper.template.toList = op.opcode.toList ++ ' ' :: op.operands.toList := by simp [Op.oper]
  rw [Oper.op?, htemplate, takeWhile_append_of_pos hopcode, dropWhile_append_of_pos hopcode]
  simpa using hnames.read?_eq hfits

/-- An operation that goes on to the next one, and whose constants fit. -/
structure Op.Straight (op : Op) : Prop where
  fits : op.Fits
  jumps : op.jumps = []

theorem straight_loadConst {r : Reg} {value : Int} (h : op ∈ loadConst r value) : op.Straight := by
  obtain ⟨n, hn, rfl⟩ | ⟨part, n, hn, rfl⟩ | rfl := loadConst_cases h
  · exact ⟨hn, rfl⟩
  · exact ⟨hn, rfl⟩
  · exact ⟨Nat.zero_lt_succ 255, rfl⟩

section
variable {w : World} {lines : List Line} (hfits : ∀ op, .op op ∈ lines → op.Fits)
include hfits

theorem stepInstr_lines (a : Nat × Core) : stepInstr w (lines.map Line.instr) a = stepLine w lines a := by
  unfold stepInstr stepLine
  rw [getElem?_map]
  rcases hline : lines[a.1]? with _ | _ | op
  · rfl
  · rfl
  · have hop : op.oper.op? = some op := Op.op?_oper (hfits op (mem_of_getElem? hline))
    rcases hexec : op.exec w a.2 with _ | ⟨c, _ | l⟩ <;> simp [Line.instr, Op.instr, hop, hexec]

/-- Instructions run like the operations that they were made for. -/
theorem executes_lines {a b : Nat × Core} : Executes w (lines.map Line.instr) a b ↔ Reaches w lines a b := by
  simp only [Executes, Reaches, stepInstr_lines hfits]

end

end

end MmixCompiler.Mmix
