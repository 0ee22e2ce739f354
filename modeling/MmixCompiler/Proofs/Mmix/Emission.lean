import MmixCompiler.Proofs.Mmix.Formatting

/-! Reading a listing back. Its sections are separated by empty lines, and every line has a label, an opcode and
operands. Without the operations that do nothing, the lines of a function are its operations in order, and every label
stands where the next operation is. -/

namespace MmixCompiler

open Mmix List

namespace Mmix

/-- Opcode and operands of the rows that do something. -/
def operations (rows : List Row) : List (String × String) :=
  (rows.filter (·.opcode ≠ "SWYM")).map fun row => (row.opcode, row.operands)

/-- The labels of rows, each with the operations from there on. -/
def definitions : List Row → List (String × List (String × String))
  | [] => []
  | row :: rows => (if row.label = "" then [] else [(row.label, operations (row :: rows))]) ++ definitions rows

namespace Line

variable (ρ : Temp → Nat)

def written? : Line → Option (String × String)
  | .label _ => none
  | .op o => some (o.written ρ)

/-- The operations of code as they are written. -/
def operations (lines : List Line) : List (String × String) := lines.filterMap (written? ρ)

def definitions : List Line → List (String × List (String × String))
  | [] => []
  | .label l :: lines => (l.text, operations ρ lines) :: definitions lines
  | .op _ :: lines => definitions lines

def item : Line → Item
  | .label l => .label l
  | .op o => .op o.opcode (o.written ρ).2

variable {ρ} {lines lines' : List Line}

@[simp] theorem operations_append : operations ρ (lines ++ lines') = operations ρ lines ++ operations ρ lines' :=
  filterMap_append

@[simp] theorem operations_map_op (ops : List Op) : operations ρ (ops.map .op) = ops.map (Op.written ρ) := by
  simp [operations, filterMap_map, Function.comp_def, written?]

@[simp] theorem definitions_append : definitions ρ (lines ++ lines') =
    (definitions ρ lines).map (fun d => (d.1, d.2 ++ operations ρ lines')) ++ definitions ρ lines' := by
  induction lines with
  | nil => rfl
  | cons line lines ih => cases line <;> simp [definitions, ih]

@[simp] theorem definitions_map_op (ops : List Op) : definitions ρ (ops.map .op) = [] := by
  induction ops with
  | nil => rfl
  | cons op ops ih => exact ih

end Line

section
variable {ρ : Temp → Nat}

theorem Op.opcode_ne_swym (op : Op) : op.opcode ≠ "SWYM" := by
  intro h
  have hmem := op.opcode_mem
  rw [h] at hmem
  exact absurd hmem (by decide)

theorem operations_rows (pending : Option Label) (lines : List Line) :
    operations (Item.rows pending (lines.map (Line.item ρ))) = Line.operations ρ lines := by
  induction lines generalizing pending with
  | nil => cases pending <;> rfl
  | cons line lines ih =>
    cases line with
    | label l =>
      cases pending with
      | none => exact ih (some l)
      | some l' => exact ih (some l)
    | op op =>
      have hop : ∀ label,
          operations (⟨label, op.opcode, (op.written ρ).2⟩ :: Item.rows none (lines.map (Line.item ρ))) =
          op.written ρ :: Line.operations ρ lines := fun label => by
        rw [← ih none, operations, filter_cons_of_pos (by simpa using op.opcode_ne_swym)]
        rfl
      cases pending with
      | none => exact hop ""
      | some l => exact hop l.text

theorem definitions_rows (pending : Option Label) (lines : List Line) :
    definitions (Item.rows pending (lines.map (Line.item ρ))) =
      pending.toList.map (fun l => (l.text, Line.operations ρ lines)) ++ Line.definitions ρ lines := by
  -- the operations of what is left of the rows are those of what is left of the lines
  induction lines generalizing pending with
  | nil =>
    cases pending <;> simp [Item.rows, definitions, Line.definitions, Line.operations, operations,
      Label.text_ne_empty]
  | cons line lines ih =>
    have hoperations := @operations_rows ρ pending (line :: lines)
    rcases line with l | op <;> rcases pending with _ | l'
    · exact ih (some l)
    · simp only [map_cons, Line.item, Item.rows] at hoperations ⊢
      rw [definitions, hoperations, if_neg l'.text_ne_empty, ih]
      rfl
    · simpa [Line.item, Item.rows, definitions, Line.definitions] using ih none
    · simp only [map_cons, Line.item, Item.rows] at hoperations ⊢
      rw [definitions, hoperations, if_neg l'.text_ne_empty, ih]
      rfl

end

/-- The pieces of a list that are each ended by an element of a kind. -/
def endedBy {α : Type} (p : α → Bool) (xs : List α) : List (List α) := (xs.splitOnP p).dropLast

theorem endedBy_append_cons {α : Type} {p : α → Bool} {xs rest : List α} {x : α} (hxs : ∀ x ∈ xs, p x = false)
    (hx : p x = true) : endedBy p (xs ++ x :: rest) = xs :: endedBy p rest := by
  rw [endedBy, splitOnP_append_cons_of_forall_mem hxs x hx, endedBy, dropLast_cons_of_ne_nil]
  exact splitOnP_ne_nil p rest

/-- The columns of a line: the label, which a blank ends, the opcode and the operands. -/
def Row.ofLine (line : List Char) : Row :=
  let rest := (line.dropWhile (· ≠ '\t')).drop 1
  ⟨lineLabel line, .ofList (rest.takeWhile (· ≠ '\t')), .ofList ((rest.dropWhile (· ≠ '\t')).drop 1)⟩

/-- The lines of a text, each ended by a newline. -/
def textLines (text : String) : List (List Char) := endedBy (· == '\n') text.toList

/-- The rows of a text, section by section. A section is ended by an empty line. -/
def readSections (text : String) : List (List Row) :=
  (endedBy List.isEmpty (textLines text)).map fun lines => lines.map Row.ofLine

/-- The text of a row without its newline. -/
def Row.line (r : Row) : List Char :=
  r.label.toList ++ (List.replicate (16 - r.label.length) ' ' ++ '\t' :: (r.opcode.toList ++ '\t' :: r.operands.toList))

section
variable {row : Row} {rows : List Row}

theorem textLines_cons {text rest : String} {line : List Char} (h : text.toList = line ++ '\n' :: rest.toList)
    (hline : '\n' ∉ line) : textLines text = line :: textLines rest := by
  have hsep : ∀ c ∈ line, (c == '\n') = false := fun c hc => beq_false_of_ne (ne_of_mem_of_not_mem hc hline)
  rw [textLines, h]
  exact endedBy_append_cons hsep (beq_self_eq_true _)

theorem Row.Neat.ofLine_line (h : row.Neat) (hopcode : '\t' ∉ row.opcode.toList) : Row.ofLine row.line = row := by
  have htab : ∀ {cs rest : List Char}, '\t' ∉ cs →
      (cs ++ '\t' :: rest).takeWhile (· ≠ '\t') = cs ∧ ((cs ++ '\t' :: rest).dropWhile (· ≠ '\t')).drop 1 = rest := by
    intro cs rest hcs
    have hne : ∀ c ∈ cs, decide (c ≠ '\t') = true := fun c hc => decide_eq_true (ne_of_mem_of_not_mem hc hcs)
    rw [takeWhile_append_of_pos hne, dropWhile_append_of_pos hne]
    simp
  have hlabel : '\t' ∉ row.label.toList ++ List.replicate (16 - row.label.length) ' ' := by
    simp only [mem_append, mem_replicate, not_or]
    exact ⟨fun hc => (h.label _ hc).2.1 rfl, by simp⟩
  have hrest : (row.line.dropWhile (· ≠ '\t')).drop 1 = row.opcode.toList ++ '\t' :: row.operands.toList := by
    rw [Row.line, ← append_assoc, (htab hlabel).2]
  rw [Row.ofLine, hrest, (htab hopcode).1, (htab hopcode).2, Row.line, h.lineLabel]
  simp

theorem Row.Neat.textLines (h : row.Neat) (rest : String) :
    textLines (row.text ++ rest) = row.line :: textLines rest := by
  have htext : (row.text ++ rest).toList = row.line ++ '\n' :: rest.toList := by simp [Row.text, Row.line]
  have hline : '\n' ∉ row.line := by
    have hlabel : '\n' ∉ row.label.toList := fun hc => (h.label _ hc).2.2 rfl
    simp [Row.line, hlabel, h.opcode, h.operands, mem_replicate]
  exact textLines_cons htext hline

theorem textLines_sectionText (h : ∀ row ∈ rows, row.Neat) (rest : String) :
    textLines (sectionText rows ++ rest) = rows.map Row.line ++ [] :: textLines rest := by
  induction rows with
  | nil =>
    have htext : (sectionText [] ++ rest).toList = [] ++ '\n' :: rest.toList := by simp [sectionText]
    exact textLines_cons htext (by simp)
  | cons row rows ih =>
    obtain ⟨hrow, hrows⟩ := forall_mem_cons.mp h
    have htext : sectionText (row :: rows) ++ rest = row.text ++ (sectionText rows ++ rest) := by
      simp [sectionText, String.append_assoc]
    rw [htext, hrow.textLines, ih hrows]
    rfl

theorem readSections_sectionText (h : ∀ row ∈ rows, row.Neat ∧ '\t' ∉ row.opcode.toList) (rest : String) :
    readSections (sectionText rows ++ rest) = rows :: readSections rest := by
  have hlines : ∀ line ∈ rows.map Row.line, line.isEmpty = false := by
    simp [Row.line]
  have hread : (rows.map Row.line).map Row.ofLine = rows := by
    rw [map_map]
    exact (map_congr_left fun row hrow => (h row hrow).1.ofLine_line (h row hrow).2).trans (map_id rows)
  rw [readSections, textLines_sectionText fun row hrow => (h row hrow).1, endedBy_append_cons hlines rfl,
    map_cons, hread]
  rfl

end

theorem readSections_join {parts : List (List Row)}
    (h : ∀ rows ∈ parts, ∀ row ∈ rows, row.Neat ∧ '\t' ∉ row.opcode.toList) :
    readSections (String.join (parts.map sectionText)) = parts := by
  induction parts with
  | nil => rfl
  | cons rows parts ih =>
    obtain ⟨hrows, hparts⟩ := forall_mem_cons.mp h
    rw [map_cons, String.join_cons, readSections_sectionText hrows, ih hparts]

/-- What an instruction stands for. -/
def Instr.Spells : Instr → Line → Prop
  | .label l, .label l' => l = l'
  | .oper o, .op op => o.Spells op
  | _, _ => False

theorem Oper.Spells.item_eq {o : Oper} {op : Op} {regs : Registers} {fp : Temp} (h : o.Spells op)
    (hcovers : ∀ t ∈ o.uses ++ o.defs, t ≠ fp → t ∈ regs) :
    Routine.item fp regs (.oper o) = .ok (.op op.opcode (op.written (regs.number fp)).2) := by
  have hexpand := (h.expands fun t ht => Registers.operand_eq (hcovers t (mem_append.mpr ht))).expand
  exact bind_eq_ok.mpr ⟨_, hexpand, congrArg _ Item.ofText_written⟩

end Mmix

/-- A routine whose instructions are those of operations, with registers for all temporaries. -/
structure Emittable where
  routine : Routine
  /-- What the instructions stand for. -/
  lines : List Line
  regs : Registers
  registers : routine.registers = some regs
  spells : List.Forall₂ Instr.Spells routine.instrs lines
  covers : ∀ i ∈ routine.instrs, ∀ t ∈ i.uses ++ i.defs, t ≠ routine.frame.fp → t ∈ regs

namespace Emittable

variable (e : Emittable) (kept : Nat)

def register : Temp → Nat := e.regs.number e.routine.frame.fp

def whole : List Line :=
  .label e.routine.frame.label :: (e.routine.prologue.map .op ++ (e.lines ++
    .label e.routine.exit :: (e.routine.epilogue kept).map .op))

theorem item_eq {i : Instr} {line : Line} (hi : i ∈ e.routine.instrs) (h : i.Spells line) :
    Routine.item e.routine.frame.fp e.regs i = .ok (line.item e.register) := by
  cases i with
  | label l =>
    cases line with
    | label l' =>
      cases h
      rfl
    | op op => exact h.elim
  | oper o =>
    cases line with
    | label l => exact h.elim
    | op op => exact Oper.Spells.item_eq h (e.covers _ hi)

/-- The prologue and the epilogue are made of machine registers. -/
theorem notMem_frame {op : Op} (h : op ∈ e.routine.prologue ∨ op ∈ e.routine.epilogue kept) :
    op.uses = [] ∧ op.defs = [] := by
  have hload : ∀ {n : Nat} {value : Int}, op ∈ loadConst (.hard n) value → op.uses = [] ∧ op.defs = [] := by
    intro n value hop
    obtain ⟨m, -, rfl⟩ | ⟨part, m, -, rfl⟩ | rfl := loadConst_cases hop <;> exact ⟨rfl, rfl⟩
  simp only [Routine.prologue, Routine.epilogue, mem_append, mem_cons, not_mem_nil, or_false] at h
  rcases h with (((h | h) | h) | h) | h | h
  · exact hload h
  · rcases h with rfl | rfl | rfl | rfl | rfl | rfl <;> exact ⟨rfl, rfl⟩
  · exact hload h
  · rcases h with rfl | rfl <;> exact ⟨rfl, rfl⟩
  · exact hload h
  · rcases h with rfl | rfl | rfl | rfl | rfl | rfl | rfl <;> exact ⟨rfl, rfl⟩

def rows : List Row := Item.rows none ((e.whole kept).map (Line.item e.register))

theorem rows_eq : e.routine.rows kept = .ok (e.rows kept) := by
  have hbody : e.routine.instrs.mapM (Routine.item e.routine.frame.fp e.regs) =
      .ok (e.lines.map (Line.item e.register)) := by
    rw [mapM_eq_ok, forall₂_map_right_iff]
    exact ((forall₂_and_left _ _).mpr ⟨fun _ hi => hi, e.spells⟩).imp fun _ _ h => e.item_eq h.1 h.2
  have hops : ∀ {ops : List Op}, (∀ op ∈ ops, op ∈ e.routine.prologue ∨ op ∈ e.routine.epilogue kept) →
      (ops.map Line.op).map (Line.item e.register) = ops.map Item.ofOp := by
    intro ops h
    rw [map_map]
    refine map_congr_left fun op hop => ?_
    obtain ⟨huses, hdefs⟩ := e.notMem_frame kept (h op hop)
    simp [Line.item, Item.ofOp, Op.written_eq huses hdefs]
  rw [Routine.rows, e.registers]
  refine bind_eq_ok.mpr ⟨_, hbody, ?_⟩
  rw [rows, whole, map_cons, map_append, map_append, map_cons, hops fun op hop => .inl hop,
    hops fun op hop => .inr hop]
  simp [Line.item]
  rfl

/-- What the rows of a function say. -/
structure Emits (rows : List Row) : Prop where
  /-- The rows that do something are the prologue, the operations and the epilogue, in order. -/
  operations : operations rows = e.routine.prologue.map (Op.written e.register) ++
    (Line.operations e.register e.lines ++ (e.routine.epilogue kept).map (Op.written e.register))
  /-- The labels are that of the function, those of the code and that of the exit, in order and as often as they occur.
  What comes after a label of the code is what comes after it in the code, and then the epilogue. -/
  definitions : definitions rows = (e.routine.frame.label.text, Mmix.operations rows) ::
    ((Line.definitions e.register e.lines).map (fun d =>
      (d.1, d.2 ++ (e.routine.epilogue kept).map (Op.written e.register))) ++
      [(e.routine.exit.text, (e.routine.epilogue kept).map (Op.written e.register))])

theorem emits_rows : e.Emits kept (e.rows kept) := by
  have hoperations : Mmix.operations (e.rows kept) = Line.operations e.register (e.whole kept) :=
    operations_rows none (e.whole kept)
  have hlabel : ∀ (l : Label) lines, Line.operations e.register (.label l :: lines) =
      Line.operations e.register lines :=
    fun _ _ => rfl
  refine ⟨?_, ?_⟩
  · rw [hoperations]
    simp [whole, hlabel]
  · rw [hoperations, rows, definitions_rows]
    simp [whole, hlabel, Line.definitions]

variable {e kept}

theorem Emits.tab_notMem {rows : List Row} (h : e.Emits kept rows) : ∀ row ∈ rows, '\t' ∉ row.opcode.toList := by
  intro row hrow
  by_cases hswym : row.opcode = "SWYM"
  · rw [hswym]
    decide
  · have hmem : (row.opcode, row.operands) ∈ Mmix.operations rows :=
      mem_map.mpr ⟨row, mem_filter.mpr ⟨hrow, decide_eq_true hswym⟩, rfl⟩
    have hop : ∃ op : Op, op.opcode = row.opcode := by
      rw [h.operations] at hmem
      simp only [Line.operations, mem_append, mem_map, mem_filterMap] at hmem
      rcases hmem with ⟨op, -, hop⟩ | ⟨line, -, hop⟩ | ⟨op, -, hop⟩
      · exact ⟨op, congrArg Prod.fst hop⟩
      · cases line with
        | label => cases hop
        | op op => exact ⟨op, congrArg Prod.fst (Option.some.inj hop)⟩
      · exact ⟨op, congrArg Prod.fst hop⟩
    obtain ⟨op, hop⟩ := hop
    rw [← hop]
    exact fun htab => (op.space_notMem_opcode _ htab).2 rfl

theorem neat (h : ∀ l ∈ e.routine.entry :: e.routine.labels, l.Plain) : e.routine.Neat := by
  obtain ⟨hentry, hlabels⟩ := forall_mem_cons.mp h
  refine ⟨hlabels, hentry, fun i hi => ?_⟩
  obtain ⟨line, -, hline⟩ := exists_right_of_forall₂ e.spells hi
  cases i with
  | label l => trivial
  | oper o =>
    cases line with
    | label => exact hline.elim
    | op op => exact Oper.Spells.wellFormed hline

end Emittable

/-- What stands before the functions. -/
def preamble (kept : Nat) (data : List DataChunk) : List (List Row) :=
  [registerRows, outputRows, runtimeRows kept, dataRows data, startRows kept]

section
variable {kept : Nat} {data : List DataChunk} {code : List Emittable}

theorem listing_eq : listing kept data (code.map Emittable.routine) =
    .ok (String.join ((preamble kept data ++ code.map (Emittable.rows · kept)).map sectionText)) := by
  have hfunctions : (code.map Emittable.routine).mapM (fun r => return sectionText (← r.rows kept)) =
      (.ok ((code.map (Emittable.rows · kept)).map sectionText) : Except CompileError (List String)) := by
    rw [mapM_eq_ok, map_map, forall₂_map_left_iff, forall₂_map_right_iff, forall₂_same]
    exact fun e _ => bind_eq_ok.mpr ⟨_, e.rows_eq kept, rfl⟩
  refine bind_eq_ok.mpr ⟨_, hfunctions, ?_⟩
  simp [preamble, String.append_assoc]
  rfl

theorem neat_preamble (h : ∀ d ∈ data, d.label.Plain) :
    ∀ rows ∈ preamble kept data, ∀ row ∈ rows, row.Neat ∧ '\t' ∉ row.opcode.toList := by
  have hdata : ∀ row ∈ dataRows data, '\t' ∉ row.opcode.toList := by
    have hrows : ∀ d : DataChunk, ∀ row ∈ d.rows, row.opcode = "OCTA" := by
      intro d row hrow
      unfold DataChunk.rows at hrow
      split at hrow
      · cases hrow
      · rcases mem_cons.mp hrow with rfl | hrow
        · rfl
        · obtain ⟨w, -, rfl⟩ := mem_map.mp hrow
          rfl
    refine forall_mem_cons.mpr ⟨by decide, forall_mem_cons.mpr ⟨by decide, fun row hrow => ?_⟩⟩
    obtain ⟨d, -, hrow⟩ := mem_flatMap.mp hrow
    rw [hrows d row hrow]
    decide
  simp only [preamble, forall_mem_cons]
  refine ⟨by simp [registerRows, Row.neat_iff], by simp [outputRows, Row.neat_iff], ?_, ?_, ?_, by simp⟩
  · exact fun row hrow => ⟨neat_runtimeRows kept row hrow, by revert row; simp [runtimeRows]⟩
  · exact fun row hrow => ⟨neat_dataRows h row hrow, hdata row hrow⟩
  · exact fun row hrow => ⟨neat_startRows kept row hrow, by revert row; simp [startRows]⟩

end

/-- Emission loses, moves and adds nothing. Code whose instructions are those of operations, with registers for its
temporaries, has a listing; the rows of every function are its prologue, its operations and its epilogue in order, but
for some that do nothing, and every label stands where it resolves to the operation after it. If labels are names, then
reading the text gives back these rows. -/
theorem listing_reads_back (kept : Nat) (data : List DataChunk) (code : List Emittable) :
    ∃ text functions, listing kept data (code.map Emittable.routine) = .ok text ∧
      text = String.join ((preamble kept data ++ functions).map sectionText) ∧
      List.Forall₂ (fun e rows => e.routine.rows kept = .ok rows ∧ e.Emits kept rows) code functions ∧
      ((∀ d ∈ data, d.label.Plain) → (∀ e ∈ code, ∀ l ∈ e.routine.entry :: e.routine.labels, l.Plain) →
        readSections text = preamble kept data ++ functions) := by
  refine ⟨_, _, listing_eq, rfl, ?_, fun hdata hcode => readSections_join fun rows hrows => ?_⟩
  · rw [forall₂_map_right_iff, forall₂_same]
    exact fun e _ => ⟨e.rows_eq kept, e.emits_rows kept⟩
  · rcases mem_append.mp hrows with hrows | hrows
    · exact neat_preamble hdata rows hrows
    · obtain ⟨e, he, rfl⟩ := mem_map.mp hrows
      exact fun row hrow => ⟨(Emittable.neat (hcode e he)).neat_rows (e.rows_eq kept) row hrow,
        (e.emits_rows kept).tab_notMem row hrow⟩

namespace Emittable

/-- A function with labels next to each other, at the end and before nothing, and a spilled word. -/
def labelledStore : Emittable where
  routine := ⟨⟨.named "f", 1, 8, 16, 0, 1⟩, .fresh 0, .fresh 2,
    [.label (.fresh 0), .label (.fresh 1), .oper ⟨"SETL `d0,7", [], [2], []⟩, .oper ⟨"STO `s0,`s1,0", [2, 0], [], []⟩,
      .label (.fresh 3), .label (.fresh 3)], some (.ofList [(2, 3)]), 8⟩
  lines := [.label (.fresh 0), .label (.fresh 1), .op (.set (.temp 2) 7), .op (.store (.temp 2) (.temp 0) (.imm 0)),
    .label (.fresh 3), .label (.fresh 3)]
  regs := .ofList [(2, 3)]
  registers := rfl
  spells := by
    refine .cons rfl (.cons rfl (.cons ⟨rfl, rfl, rfl, forall_mem_nil _⟩ (.cons ⟨rfl, rfl, rfl, forall_mem_nil _⟩
      (.cons rfl (.cons rfl .nil)))))
  covers := by decide +kernel

theorem labelledStore_reads_back :
    (∃ text functions,
      listing 8 [.string (.named "s") "ab"] ([labelledStore, labelledStore].map Emittable.routine) = .ok text ∧
      List.Forall₂ (fun e rows => e.Emits 8 rows) [labelledStore, labelledStore] functions ∧
      readSections text = preamble 8 [.string (.named "s") "ab"] ++ functions) ∧
    Line.definitions labelledStore.register labelledStore.lines =
      [("L0", [("SETL", "$3,7"), ("STO", "$3,$253,0")]), ("L1", [("SETL", "$3,7"), ("STO", "$3,$253,0")]), ("L3", []),
        ("L3", [])] := by
  refine ⟨?_, by decide +kernel⟩
  obtain ⟨text, functions, hlisting, -, hemits, hread⟩ :=
    listing_reads_back 8 [.string (.named "s") "ab"] [labelledStore, labelledStore]
  have hname : (Label.named "f").Plain ∧ (Label.named "s").Plain :=
    ⟨forall_mem_singleton.mpr rfl, forall_mem_singleton.mpr rfl⟩
  have hlabels : ∀ l ∈ labelledStore.routine.entry :: labelledStore.routine.labels, l.Plain := by
    have hfresh : ∀ n, (Label.fresh n).Plain := fun _ => trivial
    simp only [labelledStore, Routine.labels, filterMap_cons, Instr.label?, filterMap_nil, forall_mem_cons,
      forall_mem_append]
    simp [hfresh, hname.1]
  exact ⟨text, functions, hlisting, hemits.imp fun _ _ h => h.2, hread (by simpa [DataChunk.string] using hname.2)
    (by simpa using hlabels)⟩

end Emittable

section
variable {r r' : Routine} {s s₁ s' : Supply} {ts : List Temp} {c : CodeChunk} {registers : Nat} {a : Routine.Allocated}

theorem Mmix.Op.spells_instr {op : Op} (h : ∀ l ∈ op.labels, l.Plain) : op.instr.Spells (.op op) := ⟨rfl, rfl, rfl, h⟩

theorem Spills.spells (h : Spills r s ts r' s') (hr : ∀ i ∈ r.instrs, ∃ line, i.Spells line) :
    ∀ i ∈ r'.instrs, ∃ line, i.Spells line := by
  refine h.forall_instrs hr (fun old new hi => ?_) fun hop => ⟨_, Op.spells_instr (by simp [hop])⟩
  obtain ⟨_ | op, hi⟩ := hi
  · exact hi.elim
  · exact ⟨.op _, Oper.Spells.rename hi old new⟩

/-- What selection and allocation make of a chunk can be emitted. -/
theorem CodeChunk.Fit.exists_emittable (h : c.Fit s) (hselect : Gives (c.select registers) s r s₁)
    (hallocate : Gives (r.allocate registers) s₁ a s') : ∃ e : Emittable, e.routine = a.routine := by
  obtain ⟨r₀, s₀, hselect₀, hr, -⟩ := h.exists_routine registers
  cases hselect₀.symm.trans hselect
  obtain ⟨-, -, regs, hcomplete⟩ := hr.complete hallocate
  obtain ⟨ts, r', hrounds, heq⟩ := spillRounds_of_rounds hallocate
  have hselected : ∀ i ∈ r.instrs, ∃ line, i.Spells line := by
    simp only [CodeChunk.select, Ir.Stmt.selectAll, gives_bind, gives_pure] at hselect
    obtain ⟨_, _, ⟨blocks, _, hmap, rfl, rfl⟩, rfl, rfl⟩ := hselect
    intro i hi
    obtain ⟨line, hline, rfl⟩ := mem_map.mp hi
    cases line with
    | label l => exact ⟨.label l, rfl⟩
    | op op => exact ⟨.op op, Op.spells_instr (h.fit_ops hmap hline).1.labels⟩
  have hspells : ∀ i ∈ a.routine.instrs, ∃ line, i.Spells line := by
    rw [heq]
    exact (hrounds.spills hr.below).1.spells hselected
  have : Nonempty Line := ⟨.label default⟩
  choose! line hline using hspells
  refine ⟨⟨a.routine, a.routine.instrs.map line, regs, hcomplete.registers, ?_, fun i hi t ht hne => ?_⟩, rfl⟩
  · rw [forall₂_map_right_iff, forall₂_same]
    exact hline
  · obtain ⟨n, hn⟩ := hcomplete.assigned i hi t (mem_append.mp ht) hne
    exact Std.TreeMap.mem_iff_isSome_getElem?.mpr (by simp [hn])

end

end MmixCompiler
