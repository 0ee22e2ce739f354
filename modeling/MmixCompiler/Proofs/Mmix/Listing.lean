import MmixCompiler.Proofs.Mmix.Routines

/-! The labels that a listing defines. A line defines the name that it begins with, if it does not begin with a
blank; the lines of a listing are its rows, so these are the labels of the rows. -/

namespace MmixCompiler

open Mmix List

namespace Label

theorem text_ne_empty (l : Label) : l.text ≠ "" := by
  cases l <;> simp [text]

theorem text_injective : Function.Injective text := by
  intro l l' h
  cases l with
  | named name =>
    cases l' with
    | named name' => simpa [text] using h
    | fresh n => simp [text, String.ext_iff] at h
  | fresh n =>
    cases l' with
    | named name => simp [text, String.ext_iff] at h
    | fresh m =>
      have hrepr : toString n = toString m := by simpa [text] using h
      rw [← decimal_toString n, hrepr, decimal_toString]

theorem Plain.neat {l : Label} (h : l.Plain) : ∀ c ∈ l.text.toList, c ≠ ' ' ∧ c ≠ '\t' ∧ c ≠ '\n' := by
  intro c hc
  have hpart := h.isNamePart c hc
  refine ⟨?_, ?_, ?_⟩ <;> rintro rfl <;> exact absurd hpart (by decide)

end Label

namespace Mmix

/-- The name at the beginning of a line. -/
def lineLabel (line : List Char) : String := .ofList (line.takeWhile fun c => c ≠ ' ' ∧ c ≠ '\t')

/-- The labels that a text defines, line by line. -/
def definedLabels (text : String) : List String := ((text.toList.splitOn '\n').map lineLabel).filter (· ≠ "")

def rowLabels (rows : List Row) : List String := (rows.map Row.label).filter (· ≠ "")

/-- A row that is one line and whose label ends at the first blank. -/
@[mk_iff]
structure Row.Neat (r : Row) : Prop where
  label : ∀ c ∈ r.label.toList, c ≠ ' ' ∧ c ≠ '\t' ∧ c ≠ '\n'
  opcode : '\n' ∉ r.opcode.toList
  operands : '\n' ∉ r.operands.toList

@[simp] theorem newline_notMem_toDigits (n : Nat) : '\n' ∉ Nat.toDigits 10 n := fun h => by
  rw [← toList_toString] at h
  exact (plainText_repr n _ h).2 rfl

section
variable {line rest : List Char} {rows : List Row}

theorem definedLabels_cons {text rest : String} (h : text.toList = line ++ '\n' :: rest.toList) (hline : '\n' ∉ line) :
    definedLabels text = [lineLabel line].filter (· ≠ "") ++ definedLabels rest := by
  have hsplit : text.toList.splitOn '\n' = line :: rest.toList.splitOn '\n' := by
    have hsep : ∀ c ∈ line, (c == '\n') = false := fun c hc => beq_false_of_ne (ne_of_mem_of_not_mem hc hline)
    rw [h]
    exact splitOnP_append_cons_of_forall_mem hsep _ (beq_self_eq_true _) _
  rw [definedLabels, hsplit, map_cons, ← singleton_append, filter_append]
  rfl

/-- Padding and tabs end a label. -/
theorem Row.Neat.lineLabel {r : Row} (h : r.Neat) (pad : Nat) :
    lineLabel (r.label.toList ++ (List.replicate pad ' ' ++ '\t' :: rest)) = r.label := by
  have hlabel : ∀ c ∈ r.label.toList, decide (c ≠ ' ' ∧ c ≠ '\t') = true := fun c hc =>
    decide_eq_true ⟨(h.label c hc).1, (h.label c hc).2.1⟩
  rw [Mmix.lineLabel, takeWhile_append_of_pos hlabel]
  cases pad <;> simp [replicate_succ]

theorem Row.Neat.definedLabels {r : Row} (h : r.Neat) (rest : String) :
    definedLabels (r.text ++ rest) = rowLabels [r] ++ definedLabels rest := by
  have htext : (r.text ++ rest).toList = (r.label.toList ++ (List.replicate (16 - r.label.length) ' ' ++
      '\t' :: (r.opcode.toList ++ '\t' :: r.operands.toList))) ++ '\n' :: rest.toList := by
    simp [Row.text]
  rw [definedLabels_cons htext, h.lineLabel]
  · rfl
  · have hlabel : '\n' ∉ r.label.toList := fun hc => (h.label _ hc).2.2 rfl
    simp [hlabel, h.opcode, h.operands, mem_replicate]

theorem rowLabels_append {rows rows' : List Row} : rowLabels (rows ++ rows') = rowLabels rows ++ rowLabels rows' := by
  simp [rowLabels]

theorem definedLabels_sectionText (h : ∀ r ∈ rows, r.Neat) (rest : String) :
    definedLabels (sectionText rows ++ rest) = rowLabels rows ++ definedLabels rest := by
  induction rows with
  | nil =>
    have htext : (sectionText [] ++ rest).toList = [] ++ '\n' :: rest.toList := by simp [sectionText]
    exact definedLabels_cons htext (by simp)
  | cons r rows ih =>
    obtain ⟨hr, hrows⟩ := forall_mem_cons.mp h
    have htext : sectionText (r :: rows) ++ rest = r.text ++ (sectionText rows ++ rest) := by
      simp [sectionText, String.append_assoc]
    rw [htext, hr.definedLabels, ih hrows, ← append_assoc, ← rowLabels_append]
    rfl

end

def Item.label? : Item → Option Label
  | .label l => some l
  | .op .. => none

theorem rowLabels_rows (pending : Option Label) (items : List Item) :
    rowLabels (Item.rows pending items) = (pending.toList ++ items.filterMap Item.label?).map Label.text := by
  fun_induction Item.rows pending items <;> simp_all [rowLabels, Item.label?, filterMap_cons, Label.text_ne_empty]

def Item.Neat : Item → Prop
  | .label l => l.Plain
  | .op opcode operands => '\n' ∉ opcode.toList ∧ '\n' ∉ operands.toList

theorem neat_rows {pending : Option Label} {items : List Item} (hpending : ∀ l ∈ pending, l.Plain)
    (hitems : ∀ i ∈ items, i.Neat) : ∀ r ∈ Item.rows pending items, r.Neat := by
  have hrow : ∀ {l : Label} {opcode operands : String}, l.Plain → '\n' ∉ opcode.toList ∧ '\n' ∉ operands.toList →
      Row.Neat ⟨l.text, opcode, operands⟩ := fun hl hop => ⟨hl.neat, hop.1, hop.2⟩
  fun_induction Item.rows pending items with
  | case1 => simp
  | case2 l => simpa using hrow (hpending l rfl) (by decide)
  | case3 l items ih =>
    obtain ⟨hl, hitems⟩ := forall_mem_cons.mp hitems
    exact ih (by rintro _ ⟨⟩; exact hl) hitems
  | case4 l l' items ih =>
    obtain ⟨hl', hitems⟩ := forall_mem_cons.mp hitems
    exact forall_mem_cons.mpr ⟨hrow (hpending l rfl) (by decide), ih (by rintro _ ⟨⟩; exact hl') hitems⟩
  | case5 opcode operands items ih =>
    obtain ⟨hop, hitems⟩ := forall_mem_cons.mp hitems
    exact forall_mem_cons.mpr ⟨⟨by simp, hop.1, hop.2⟩, ih (by simp) hitems⟩
  | case6 l opcode operands items ih =>
    obtain ⟨hop, hitems⟩ := forall_mem_cons.mp hitems
    exact forall_mem_cons.mpr ⟨hrow (hpending l rfl) hop, ih (by simp) hitems⟩

/-- A newline is a part of its own, or stands after something malformed. -/
theorem mem_pieces_of_newline {cs : List Char} (h : '\n' ∈ cs) : .char '\n' ∈ pieces cs ∨ .malformed ∈ pieces cs := by
  have hdigits : ∀ {cs : List Char}, '\n' ∈ cs → '\n' ∈ cs.dropWhile Char.isDigit := by
    intro cs hcs
    rw [← takeWhile_append_dropWhile (p := Char.isDigit) (l := cs)] at hcs
    refine (mem_append.mp hcs).resolve_left fun hmem => ?_
    exact absurd (mem_takeWhile_imp hmem) (by decide)
  fun_induction pieces cs with
  | case1 => cases h
  | case2 cs ih | case3 cs ih =>
    have hcs : '\n' ∈ cs := by simpa using h
    exact (ih (hdigits hcs)).imp (mem_cons_of_mem _) (mem_cons_of_mem _)
  | case4 => exact .inr (mem_singleton_self _)
  | case5 c cs _ _ _ ih =>
    rcases mem_cons.mp h with rfl | h
    · exact .inl mem_cons_self
    · exact (ih h).imp (mem_cons_of_mem _) (mem_cons_of_mem _)

theorem Oper.WellFormed.newline_notMem {o : Oper} (h : o.WellFormed) : '\n' ∉ o.template.toList := by
  intro hmem
  rcases mem_pieces_of_newline hmem with hx | hx
  · exact h _ hx rfl
  · exact h _ hx

theorem Oper.WellFormed.newline_notMem_expand {o : Oper} (h : o.WellFormed)
    {operand : Temp → Except CompileError String} (hoperand : ∀ t s, operand t = .ok s → '\n' ∉ s.toList)
    {text : String} (htext : o.expand operand = .ok text) : '\n' ∉ text.toList := by
  have hnamed : ∀ {ts : List Temp} {i : Nat} {s : String}, Oper.piece.named o operand ts i = .ok s →
      '\n' ∉ s.toList := by
    intro ts i s hs
    unfold Oper.piece.named at hs
    split at hs
    · exact hoperand _ _ hs
    · cases hs
  obtain ⟨ss, hss, htext⟩ := bind_eq_ok.mp htext
  cases htext
  rw [String.toList_join, mem_flatMap]
  rintro ⟨s, hs, hmem⟩
  obtain ⟨x, hx, hpiece⟩ := exists_left_of_forall₂ (mapM_eq_ok.mp hss) hs
  cases x with
  | char c =>
    cases hpiece
    have hc : '\n' = c := by simpa using hmem
    exact h _ hx hc.symm
  | read i | written i => exact hnamed hpiece hmem
  | malformed => exact h _ hx

theorem Item.neat_ofOp {op : Op} (h : ∀ l ∈ op.labels, l.Plain) : (Item.ofOp op).Neat := by
  have htemplate := (Op.wellFormed h).newline_notMem
  simp only [Op.oper, String.toList_append, mem_append, not_or] at htemplate
  exact ⟨htemplate.1.1, htemplate.2⟩

theorem Item.neat_ofText {s : String} (h : '\n' ∉ s.toList) : (Item.ofText s).Neat := by
  refine ⟨fun hmem => h ?_, fun hmem => h ?_⟩
  · rw [String.toList_ofList] at hmem
    exact (takeWhile_sublist _).subset hmem
  · rw [String.toList_ofList] at hmem
    exact (dropWhile_sublist _).subset (drop_sublist 1 _ |>.subset hmem)

theorem Registers.newline_notMem_operand {regs : Registers} {fp t : Temp} {s : String} (h : regs.operand fp t = .ok s) :
    '\n' ∉ s.toList := by
  unfold Registers.operand at h
  split at h
  · cases h
    decide
  · split at h
    · cases h
      simp
    · cases h

end Mmix

def Routine.labels (r : Routine) : List Label := r.frame.label :: (r.instrs.filterMap Instr.label? ++ [r.exit])

/-- A routine whose rows are lines. -/
structure Routine.Neat (r : Routine) : Prop where
  labels : ∀ l ∈ r.labels, l.Plain
  entry : r.entry.Plain
  wellFormed : ∀ i ∈ r.instrs, i.WellFormed

section
variable {r : Routine} {kept : Nat} {rows : List Row} {fp : Temp} {regs : Registers} {i : Instr} {x : Item}

theorem Routine.label?_item (h : Routine.item fp regs i = .ok x) : x.label? = i.label? := by
  cases i with
  | label l =>
    cases h
    rfl
  | oper o =>
    obtain ⟨text, -, h⟩ := bind_eq_ok.mp h
    cases h
    rfl

theorem Routine.filterMap_item {instrs : List Instr} {body : List Item}
    (h : List.Forall₂ (fun i x => Routine.item fp regs i = .ok x) instrs body) :
    body.filterMap Item.label? = instrs.filterMap Instr.label? := by
  induction h with
  | nil => rfl
  | cons hx _ ih => rw [filterMap_cons, filterMap_cons, Routine.label?_item hx, ih]

theorem Routine.neat_item (hi : i.WellFormed) (hlabel : ∀ l ∈ i.label?, l.Plain) (h : Routine.item fp regs i = .ok x) :
    x.Neat := by
  cases i with
  | label l =>
    cases h
    exact hlabel l rfl
  | oper o =>
    obtain ⟨text, htext, h⟩ := bind_eq_ok.mp h
    cases h
    exact Item.neat_ofText (Oper.WellFormed.newline_notMem_expand hi
      (fun _ _ => Registers.newline_notMem_operand) htext)

theorem Routine.exists_items (h : r.rows kept = .ok rows) : ∃ regs body,
    List.Forall₂ (fun i x => Routine.item r.frame.fp regs i = .ok x) r.instrs body ∧
      rows = Item.rows none (.label r.frame.label :: r.prologue.map .ofOp ++ body ++
        .label r.exit :: (r.epilogue kept).map .ofOp) := by
  unfold Routine.rows at h
  split at h
  · cases h
  · next regs hregs =>
    obtain ⟨body, hbody, h⟩ := bind_eq_ok.mp h
    cases h
    exact ⟨regs, body, mapM_eq_ok.mp hbody, rfl⟩

theorem Routine.rowLabels_rows (h : r.rows kept = .ok rows) : rowLabels rows = r.labels.map Label.text := by
  obtain ⟨regs, body, hbody, rfl⟩ := Routine.exists_items h
  have hops : ∀ ops : List Op, (ops.map Item.ofOp).filterMap Item.label? = [] := by
    intro ops
    simp [filterMap_map, Function.comp_def, Item.ofOp, Item.label?]
  rw [Mmix.rowLabels_rows]
  simp [Routine.labels, hops, Routine.filterMap_item hbody, Item.label?]

theorem Routine.labels_prologue {op : Op} (h : op ∈ r.prologue) : op.labels ⊆ [r.entry] := by
  simp only [Routine.prologue, mem_append, mem_cons, not_mem_nil, or_false] at h
  rcases h with ((h | h) | h) | h
  · simp [labels_loadConst h]
  · rcases h with rfl | rfl | rfl | rfl | rfl | rfl <;> exact nil_subset _
  · simp [labels_loadConst h]
  · rcases h with rfl | rfl
    · exact nil_subset _
    · exact List.Subset.refl _

theorem Routine.labels_epilogue {op : Op} (h : op ∈ r.epilogue kept) : op.labels = [] := by
  simp only [Routine.epilogue, mem_append, mem_cons, not_mem_nil, or_false] at h
  rcases h with h | h
  · exact labels_loadConst h
  · rcases h with rfl | rfl | rfl | rfl | rfl | rfl | rfl <;> rfl

theorem Routine.Neat.neat_rows (hr : r.Neat) (h : r.rows kept = .ok rows) : ∀ row ∈ rows, row.Neat := by
  obtain ⟨regs, body, hbody, rfl⟩ := Routine.exists_items h
  refine Mmix.neat_rows (by simp) fun x hx => ?_
  simp only [mem_append, mem_cons, mem_map] at hx
  rcases hx with ((rfl | ⟨op, hop, rfl⟩) | hx) | rfl | ⟨op, hop, rfl⟩
  · exact hr.labels _ mem_cons_self
  · exact Item.neat_ofOp fun l hl => mem_singleton.mp (Routine.labels_prologue hop hl) ▸ hr.entry
  · obtain ⟨i, hi, hitem⟩ := exists_left_of_forall₂ hbody hx
    refine Routine.neat_item (hr.wellFormed i hi) (fun l hl => hr.labels l ?_) hitem
    exact mem_cons_of_mem _ (mem_append_left _ (mem_filterMap.mpr ⟨i, hi, hl⟩))
  · exact hr.labels _ (mem_cons_of_mem _ (mem_append_right _ mem_cons_self))
  · exact Item.neat_ofOp (by simp [Routine.labels_epilogue hop])

end

def DataChunk.labels (d : DataChunk) : List Label := if d.words = [] then [] else [d.label]

theorem rowLabels_dataRows (data : List DataChunk) :
    rowLabels (dataRows data) = (data.flatMap DataChunk.labels).map Label.text := by
  have hrows : ∀ d : DataChunk, rowLabels d.rows = d.labels.map Label.text := by
    intro d
    unfold DataChunk.rows DataChunk.labels
    cases d.words with
    | nil => rfl
    | cons w ws => simp [rowLabels, Label.text_ne_empty, Function.comp_def]
  have hall : rowLabels (data.flatMap DataChunk.rows) = (data.flatMap DataChunk.labels).map Label.text := by
    induction data with
    | nil => rfl
    | cons d data ih => rw [flatMap_cons, rowLabels_append, ih, hrows, flatMap_cons, map_append]
  simpa [dataRows, rowLabels] using hall

theorem neat_dataRows {data : List DataChunk} (h : ∀ d ∈ data, d.label.Plain) : ∀ row ∈ dataRows data, row.Neat := by
  refine forall_mem_cons.mpr ⟨⟨by simp, by decide, by decide⟩,
    forall_mem_cons.mpr ⟨⟨by simp, by decide, by decide⟩, fun row hrow => ?_⟩⟩
  obtain ⟨d, hd, hrow⟩ := mem_flatMap.mp hrow
  unfold DataChunk.rows at hrow
  split at hrow
  · cases hrow
  · rcases mem_cons.mp hrow with rfl | hrow
    · exact ⟨(h d hd).neat, by simp, by simp⟩
    · obtain ⟨w, -, rfl⟩ := mem_map.mp hrow
      exact ⟨by simp, by simp, by simp⟩

theorem neat_runtimeRows (kept : Nat) : ∀ row ∈ runtimeRows kept, row.Neat := by
  simp [runtimeRows, Row.neat_iff]

theorem neat_startRows (kept : Nat) : ∀ row ∈ startRows kept, row.Neat := by
  simp [startRows, Row.neat_iff]

theorem definedLabels_join {kept : Nat} {code : List Routine} {functions : List String} (hcode : ∀ r ∈ code, r.Neat)
    (h : List.Forall₂ (fun r text => (do return sectionText (← r.rows kept) : Except CompileError String) = .ok text)
      code functions) : definedLabels (String.join functions) = (code.flatMap Routine.labels).map Label.text := by
  induction h with
  | nil => rfl
  | cons hr _ ih =>
    obtain ⟨hneat, hcode⟩ := forall_mem_cons.mp hcode
    obtain ⟨rows, hrows, heq⟩ := bind_eq_ok.mp hr
    cases heq
    rw [String.join_cons, definedLabels_sectionText (hneat.neat_rows hrows), ih hcode, Routine.rowLabels_rows hrows,
      flatMap_cons, map_append]

theorem definedLabels_listing {kept : Nat} {data : List DataChunk} {code : List Routine} {text : String}
    (hdata : ∀ d ∈ data, d.label.Plain) (hcode : ∀ r ∈ code, r.Neat) (h : listing kept data code = .ok text) :
    definedLabels text = ["OutData", "_putChar", "_new", "_del"] ++ ((data.flatMap DataChunk.labels).map Label.text ++
      "Main" :: (code.flatMap Routine.labels).map Label.text) := by
  obtain ⟨functions, hfunctions, h⟩ := bind_eq_ok.mp h
  cases h
  simp only [String.append_assoc]
  rw [definedLabels_sectionText (by simp [registerRows, Row.neat_iff]),
    definedLabels_sectionText (by simp [outputRows, Row.neat_iff]), definedLabels_sectionText (neat_runtimeRows kept),
    definedLabels_sectionText (neat_dataRows hdata), definedLabels_sectionText (neat_startRows kept),
    definedLabels_join hcode (mapM_eq_ok.mp hfunctions), rowLabels_dataRows]
  rfl

end MmixCompiler
