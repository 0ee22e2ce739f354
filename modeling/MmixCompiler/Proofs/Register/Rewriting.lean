import MmixCompiler.Proofs.Fresh
import MmixCompiler.Proofs.Mmix.Octabyte
import MmixCompiler.Register.Allocation

/-! The shape of code after a temporary has moved to the frame. Every instruction becomes a block: it
is left alone, or stands between operations that fetch the temporary and store it. -/

namespace MmixCompiler

open Mmix Fresh List

variable {op : Op} {ts : List Temp} {u : Temp}

/-- Operations that fetch a word from the frame. -/
def fetch (new a fp : Temp) (distance : Int) : List Op :=
  slotOps a fp distance ++ [.load (.temp new) (.temp a) (.imm 0)]

/-- Operations that store a word in the frame. -/
def keep (new a fp : Temp) (distance : Int) : List Op :=
  slotOps a fp distance ++ [.store (.temp new) (.temp a) (.imm 0)]

def Mmix.Oper.rename (o : Oper) (old new : Temp) : Oper :=
  { o with uses := MmixCompiler.rename old new o.uses, defs := MmixCompiler.rename old new o.defs }

/-- What is put before an operation when `t` moves to the frame, and behind it. -/
def fetched (t fp : Temp) (distance : Int) (n : Nat) (o : Oper) : List Instr :=
  if t ∈ o.uses then (fetch n (n + 1) fp distance).map Op.instr else []

def kept (t fp : Temp) (distance : Int) (n : Nat) (o : Oper) : List Instr :=
  if t ∈ o.defs then
    (keep n (if t ∈ o.uses then n + 2 else n + 1) fp distance).map Op.instr
  else []

/-- How many temporaries are taken for it. -/
def taken (t : Temp) (o : Oper) : Nat :=
  (if t ∈ o.uses ∨ t ∈ o.defs then 1 else 0) + (if t ∈ o.uses then 1 else 0) +
    if t ∈ o.defs then 1 else 0

/-- The block of an instruction when `t` moves to the frame. What it takes from the supply is at least
`low` and below `high`. -/
inductive Block (t fp : Temp) (distance : Int) (low high : Nat) : Instr → List Instr → Prop where
  | label (l : Label) : Block t fp distance low high (.label l) [.label l]
  | same {o : Oper} (huses : t ∉ o.uses) (hdefs : t ∉ o.defs) :
      Block t fp distance low high (.oper o) [.oper o]
  | moved {o : Oper} {new : Nat} (hnew : low ≤ new ∧ new < high) (before after : List Op)
      (hbefore : t ∉ o.uses ∧ before = [] ∨ t ∈ o.uses ∧ ∃ a : Nat, low ≤ a ∧ a < high ∧ a ≠ new ∧
        before = fetch new a fp distance)
      (hafter : t ∉ o.defs ∧ after = [] ∨ t ∈ o.defs ∧ ∃ a : Nat, low ≤ a ∧ a < high ∧ a ≠ new ∧
        after = keep new a fp distance) :
      Block t fp distance low high (.oper o)
        (before.map Op.instr ++ .oper (o.rename t new) :: after.map Op.instr)

section
variable {t fp : Temp} {distance : Int} {s s' : Supply} {i : Instr} {block : List Instr}

theorem gives_slotAddress {p : Temp × List Op} : Gives (slotAddress fp distance) s p s' ↔
    p = (s.temps, slotOps s.temps fp distance) ∧ s' = ⟨s.temps + 1, s.labels⟩ := by
  simp only [slotAddress, gives_bind, gives_temp, gives_pure]
  constructor
  · rintro ⟨a, s₁, ⟨rfl, rfl⟩, rfl, rfl⟩
    exact ⟨rfl, rfl⟩
  · rintro ⟨rfl, rfl⟩
    exact ⟨_, _, ⟨rfl, rfl⟩, rfl, rfl⟩

theorem rename_of_notMem {new : Temp} (h : t ∉ ts) : rename t new ts = ts := by
  refine (map_congr_left fun u hu => if_neg ?_).trans (map_id ts)
  rintro rfl
  exact h hu

theorem gives_spill {o : Oper} : Gives ((Instr.oper o).spill t fp distance) s block s' ↔
    block = fetched t fp distance s.temps o ++ .oper (o.rename t s.temps) :: kept t fp distance s.temps o ∧
      s' = ⟨s.temps + taken t o, s.labels⟩ := by
  unfold fetched kept taken
  by_cases huses : t ∈ o.uses <;> by_cases hdefs : t ∈ o.defs <;>
    simp [-bind_pure_comp, Instr.spill, huses, hdefs, gives_slotAddress, Oper.rename, rename_of_notMem, fetch, keep,
      @eq_comm _ _ s', @eq_comm _ _ block]
  all_goals exact and_comm

theorem block_of_spill (h : Gives (i.spill t fp distance) s block s') :
    s.temps ≤ s'.temps ∧ Block t fp distance s.temps s'.temps i block := by
  cases i with
  | label l =>
    obtain ⟨rfl, rfl⟩ := gives_pure.mp h
    exact ⟨Nat.le_refl _, .label l⟩
  | oper o =>
    obtain ⟨rfl, rfl⟩ := gives_spill.mp h
    refine ⟨Nat.le_add_right _ _, ?_⟩
    by_cases huses : t ∈ o.uses <;> by_cases hdefs : t ∈ o.defs <;>
      simp only [fetched, kept, taken, huses, hdefs, or_true, true_or, or_self, if_true, if_false]
    · exact .moved ⟨Nat.le_refl _, by omega⟩ _ _ (.inr ⟨huses, _, Nat.le_add_right _ 1, by omega, by omega, rfl⟩)
        (.inr ⟨hdefs, _, Nat.le_add_right _ 2, by omega, by omega, rfl⟩)
    · exact .moved ⟨Nat.le_refl _, by omega⟩ _ [] (.inr ⟨huses, _, Nat.le_add_right _ 1, by omega, by omega, rfl⟩)
        (.inl ⟨hdefs, rfl⟩)
    · exact .moved ⟨Nat.le_refl _, by omega⟩ [] _ (.inl ⟨huses, rfl⟩)
        (.inr ⟨hdefs, _, Nat.le_add_right _ 1, by omega, by omega, rfl⟩)
    · rw [Oper.rename, rename_of_notMem huses, rename_of_notMem hdefs]
      exact .same huses hdefs

theorem Block.mono {low high low' high' : Nat} (hlow : low' ≤ low) (hhigh : high ≤ high')
    (h : Block t fp distance low high i block) : Block t fp distance low' high' i block := by
  cases h with
  | label l => exact .label l
  | same huses hdefs => exact .same huses hdefs
  | moved hnew before after hbefore hafter =>
    refine .moved ⟨by omega, by omega⟩ before after (hbefore.imp_right ?_) (hafter.imp_right ?_)
    · rintro ⟨huses, a, h₁, h₂, h₃⟩
      exact ⟨huses, a, by omega, by omega, h₃⟩
    · rintro ⟨hdefs, a, h₁, h₂, h₃⟩
      exact ⟨hdefs, a, by omega, by omega, h₃⟩

theorem blocks_of_mapM {instrs : List Instr} {blocks : List (List Instr)}
    (h : Gives (instrs.mapM (Instr.spill t fp distance)) s blocks s') :
    s.temps ≤ s'.temps ∧ List.Forall₂ (Block t fp distance s.temps s'.temps) instrs blocks := by
  induction instrs generalizing s blocks with
  | nil =>
    obtain ⟨rfl, rfl⟩ := gives_mapM_nil.mp h
    exact ⟨Nat.le_refl _, .nil⟩
  | cons i instrs ih =>
    obtain ⟨block, s₁, blocks, hblock, hblocks, rfl⟩ := gives_mapM_cons.mp h
    obtain ⟨hle, hblock⟩ := block_of_spill hblock
    obtain ⟨hle', hblocks⟩ := ih hblocks
    refine ⟨Nat.le_trans hle hle', .cons (hblock.mono (Nat.le_refl _) hle') (hblocks.imp ?_)⟩
    exact fun _ _ h => h.mono hle (Nat.le_refl _)

theorem Routine.blocks_of_spill {r r' : Routine} (h : Gives (r.spill t) s r' s') :
    s.temps ≤ s'.temps ∧ ∃ blocks, List.Forall₂ (Block t r.frame.fp (r.lastSlot + 8) s.temps s'.temps)
      r.instrs blocks ∧ r' = { r with spilled := r.spilled + 8, instrs := blocks.flatten } := by
  simp only [spill, gives_bind, gives_pure] at h
  obtain ⟨blocks, s₁, hblocks, rfl, rfl⟩ := h
  obtain ⟨hle, hblocks⟩ := blocks_of_mapM hblocks
  refine ⟨hle, blocks, ?_, rfl⟩
  have hdistance : lastSlot { r with spilled := r.spilled + Word.size } = r.lastSlot + 8 := by
    simp only [lastSlot, Word.size]
    omega
  rwa [hdistance] at hblocks

/-- What stands in the new code of a routine stands in the block of an instruction of the old. -/
theorem Routine.exists_block {r r' : Routine} (h : Gives (r.spill t) s r' s') {i' : Instr} (hi : i' ∈ r'.instrs) :
    ∃ i ∈ r.instrs, ∃ block, Block t r.frame.fp (r.lastSlot + 8) s.temps s'.temps i block ∧ i' ∈ block := by
  obtain ⟨-, blocks, hblocks, rfl⟩ := blocks_of_spill h
  obtain ⟨block, hblock, hi⟩ := mem_flatten.mp hi
  obtain ⟨i, hmem, hrel⟩ := exists_left_of_forall₂ hblocks hblock
  exact ⟨i, hmem, block, hrel, hi⟩

end

def Mmix.Instr.temps (i : Instr) : List Temp := i.uses ++ i.defs

section
variable {t fp a new : Temp} {distance : Int} {low high : Nat} {i : Instr} {block : List Instr}

theorem slotOps_spec (h : op ∈ slotOps a fp distance) :
    op.jumps = [] ∧ op.defs = [a] ∧ ∀ u ∈ op.uses, u = a ∨ u = fp := by
  obtain h | rfl := (mem_append.mp h).imp_right mem_singleton.mp
  · obtain ⟨n, -, rfl⟩ | ⟨part, n, -, rfl⟩ | rfl := loadConst_cases h <;>
      simp [Op.jumps, Op.defs, Op.uses, Op.args, Reg.temp?]
  · simp [Op.jumps, Op.defs, Op.uses, Op.args, Op.Arg.ofValue, Reg.temp?, or_comm]

theorem mem_temps_slotOps (h : op ∈ slotOps a fp distance) : ∀ u ∈ op.instr.temps, u = a ∨ u = fp := by
  obtain ⟨-, hdefs, huses⟩ := slotOps_spec h
  intro u hu
  rcases mem_append.mp hu with hu | hu
  · exact huses u hu
  · exact .inl (mem_singleton.mp (hdefs ▸ hu))

section

variable (h : op ∈ fetch new a fp distance ∨ op ∈ keep new a fp distance)

include h

theorem mem_access : op ∈ slotOps a fp distance ∨
    op = .load (.temp new) (.temp a) (.imm 0) ∨ op = .store (.temp new) (.temp a) (.imm 0) := by
  rcases h with h | h <;> rcases mem_append.mp h with h | h
  · exact .inl h
  · exact .inr (.inl (mem_singleton.mp h))
  · exact .inl h
  · exact .inr (.inr (mem_singleton.mp h))

theorem mem_temps_access : ∀ u ∈ op.instr.temps, u = a ∨ u = fp ∨ u = new := by
  rcases mem_access h with h | rfl | rfl
  · exact fun u hu => (mem_temps_slotOps h u hu).imp_right .inl
  all_goals
    simp [Instr.temps, Op.instr, Instr.uses, Instr.defs, Op.uses, Op.defs, Op.args, Op.Arg.ofValue, Reg.temp?, or_comm]

theorem jumps_access : op.jumps = [] := by
  rcases mem_access h with h | rfl | rfl
  · exact (slotOps_spec h).1
  · rfl
  · rfl

end

theorem mem_rename (h : u ∈ rename t new ts) : u = new ∧ t ∈ ts ∨ u ∈ ts ∧ u ≠ t := by
  obtain ⟨v, hv, rfl⟩ := mem_map.mp h
  split
  · rename_i heq; exact .inl ⟨rfl, heq ▸ hv⟩
  · rename_i hne; exact .inr ⟨hv, hne⟩

theorem mem_rename_of_mem (hu : u ∈ ts) (hne : u ≠ t) : u ∈ rename t new ts := mem_map.mpr ⟨u, hu, if_neg hne⟩

/-- A block is made of its instruction, which may be renamed, and of what reaches a slot. -/
theorem Block.mem_cases (h : Block t fp distance low high i block) {i' : Instr} (hi : i' ∈ block) :
    t ∉ i.temps ∧ i' = i ∨ ∃ new : Nat, low ≤ new ∧ new < high ∧
      ((∃ o : Oper, i = .oper o ∧ i' = .oper (o.rename t new)) ∨ ∃ (op : Op) (a : Nat), low ≤ a ∧ a < high ∧
        (op ∈ fetch new a fp distance ∨ op ∈ keep new a fp distance) ∧ i' = op.instr) := by
  cases h with
  | label l => exact .inl ⟨by simp [Instr.temps, Instr.uses, Instr.defs], mem_singleton.mp hi⟩
  | same huses hdefs => exact .inl ⟨fun ht => (mem_append.mp ht).elim huses hdefs, mem_singleton.mp hi⟩
  | @moved o new hnew before after hbefore hafter =>
    refine .inr ⟨new, hnew.1, hnew.2, ?_⟩
    simp only [mem_append, mem_cons, mem_map] at hi
    rcases hi with ⟨op, hop, rfl⟩ | rfl | ⟨op, hop, rfl⟩
    · obtain ⟨-, rfl⟩ | ⟨-, a, hlow, hhigh, -, rfl⟩ := hbefore
      · cases hop
      · exact .inr ⟨op, a, hlow, hhigh, .inl hop, rfl⟩
    · exact .inl ⟨o, rfl, rfl⟩
    · obtain ⟨-, rfl⟩ | ⟨-, a, hlow, hhigh, -, rfl⟩ := hafter
      · cases hop
      · exact .inr ⟨op, a, hlow, hhigh, .inr hop, rfl⟩

theorem Block.mem_temps (h : Block t fp distance low high i block) {i' : Instr} (hi : i' ∈ block) (hu : u ∈ i'.temps) :
    u ∈ i.temps ∧ u ≠ t ∨ u = fp ∨ low ≤ u ∧ u < high := by
  rcases h.mem_cases hi with ⟨ht, rfl⟩ | ⟨new, hlow, hhigh, ⟨o, rfl, rfl⟩ | ⟨op, a, hlow', hhigh', hop, rfl⟩⟩
  · exact .inl ⟨hu, fun heq => ht (heq ▸ hu)⟩
  · rcases mem_append.mp hu with hu | hu <;> rcases mem_rename hu with ⟨rfl, -⟩ | ⟨hu, hne⟩
    · exact .inr (.inr ⟨hlow, hhigh⟩)
    · exact .inl ⟨mem_append_left _ hu, hne⟩
    · exact .inr (.inr ⟨hlow, hhigh⟩)
    · exact .inl ⟨mem_append_right _ hu, hne⟩
  · rcases mem_temps_access hop u hu with rfl | rfl | rfl
    · exact .inr (.inr ⟨hlow', hhigh'⟩)
    · exact .inr (.inl rfl)
    · exact .inr (.inr ⟨hlow, hhigh⟩)

theorem Block.of_oper {o : Oper} (h : Block t fp distance low high (.oper o) block) :
    ∃ (new : Nat) (before after : List Op), low ≤ new ∧
      block = before.map Op.instr ++ .oper (o.rename t new) :: after.map Op.instr ∧
      (t ∉ o.uses ∧ before = [] ∨ t ∈ o.uses ∧ ∃ a : Nat, low ≤ a ∧ a ≠ new ∧ before = fetch new a fp distance) ∧
      (t ∉ o.defs ∧ after = [] ∨ t ∈ o.defs ∧ ∃ a : Nat, low ≤ a ∧ a ≠ new ∧ after = keep new a fp distance) := by
  cases h with
  | same huses hdefs =>
    refine ⟨low, [], [], Nat.le_refl _, ?_, .inl ⟨huses, rfl⟩, .inl ⟨hdefs, rfl⟩⟩
    simp [Oper.rename, rename_of_notMem huses, rename_of_notMem hdefs]
  | @moved _ new hnew before after hbefore hafter =>
    refine ⟨new, before, after, hnew.1, rfl, hbefore.imp_right ?_, hafter.imp_right ?_⟩
    · rintro ⟨huses, a, h₁, -, h₂⟩
      exact ⟨huses, a, h₁, h₂⟩
    · rintro ⟨hdefs, a, h₁, -, h₂⟩
      exact ⟨hdefs, a, h₁, h₂⟩

theorem Block.of_jumps {o o' : Oper} (h : Block t fp distance low high (.oper o) block)
    (ho : .oper o' ∈ block) (hjumps : o'.jumps ≠ []) : ∃ new, o' = o.rename t new := by
  rcases h.mem_cases ho with ⟨ht, heq⟩ | ⟨new, -, -, ⟨_, heq, heq'⟩ | ⟨op, a, -, -, hop, heq⟩⟩
  · cases heq
    have hnot : t ∉ o.uses ∧ t ∉ o.defs := not_or.mp fun h => ht (mem_append.mpr h)
    exact ⟨t, by rw [Oper.rename, rename_of_notMem hnot.1, rename_of_notMem hnot.2]⟩
  · cases heq
    cases heq'
    exact ⟨new, rfl⟩
  · cases heq
    exact absurd (jumps_access hop) hjumps

theorem Block.label?_eq (h : Block t fp distance low high i block) : (∃ l, i = .label l ∧ block = [.label l]) ∨
      i.label? = none ∧ block ≠ [] ∧ ∀ i' ∈ block, i'.label? = none := by
  cases h with
  | label l => exact .inl ⟨l, rfl, rfl⟩
  | same huses hdefs => exact .inr ⟨rfl, by simp, by simp [Instr.label?]⟩
  | moved hnew before after hbefore hafter =>
    refine .inr ⟨rfl, by simp, fun i' hi => ?_⟩
    simp only [mem_append, mem_cons, mem_map] at hi
    rcases hi with ⟨op, -, rfl⟩ | rfl | ⟨op, -, rfl⟩ <;> rfl

end

/-- Where the block of an instruction begins. -/
def blockStart {α : Type} (blocks : List (List α)) (index : Nat) : Nat := (blocks.take index).flatten.length

section
variable {α : Type} {blocks : List (List α)} {block : List α} {index : Nat}

theorem blockStart_succ (h : blocks[index]? = some block) :
    blockStart blocks (index + 1) = blockStart blocks index + block.length := by
  simp [blockStart, take_add_one, h]

theorem getElem?_blockStart (h : blocks[index]? = some block) {k : Nat} (hk : k < block.length) :
    blocks.flatten[blockStart blocks index + k]? = block[k]? := by
  obtain ⟨hlt, hblock⟩ := List.getElem?_eq_some_iff.mp h
  have hsplit : blocks.flatten = (blocks.take index).flatten ++ (block ++ (blocks.drop (index + 1)).flatten) := by
    conv_lhs => rw [← take_append_drop index blocks, drop_eq_getElem_cons hlt, hblock]
    simp
  rw [hsplit, blockStart, getElem?_append_right (by omega), Nat.add_sub_cancel_left,
    getElem?_append_left hk]

theorem exists_block_of_getElem? {i : Nat} {x : α} (h : blocks.flatten[i]? = some x) :
    ∃ k j block, blocks[k]? = some block ∧ block[j]? = some x ∧ i = blockStart blocks k + j := by
  induction blocks generalizing i with
  | nil => cases h
  | cons block blocks ih =>
    rw [flatten_cons] at h
    rcases Nat.lt_or_ge i block.length with hlt | hge
    · exact ⟨0, i, block, rfl, getElem?_append_left hlt ▸ h, (Nat.zero_add i).symm⟩
    · rw [getElem?_append_right hge] at h
      obtain ⟨k, j, block', hk, hj, hi⟩ := ih h
      refine ⟨k + 1, j, block', hk, hj, ?_⟩
      simp only [blockStart, take_succ_cons, flatten_cons, length_append] at hi ⊢
      omega

theorem blockStart_map {β : Type} (f : α → β) (blocks : List (List α)) (index : Nat) :
    blockStart (blocks.map (List.map f)) index = blockStart blocks index := by
  rw [blockStart, ← map_take, ← map_flatten, length_map, blockStart]

theorem labelIndex?_flatten {instrs : List Instr} {blocks : List (List Instr)}
    {r : Instr → List Instr → Prop} (h : List.Forall₂ r instrs blocks)
    (hr : ∀ i block, r i block → (∃ l, i = .label l ∧ block = [.label l]) ∨
      i.label? = none ∧ block ≠ [] ∧ ∀ i' ∈ block, i'.label? = none) (l : Label) :
    labelIndex? blocks.flatten l = (labelIndex? instrs l).map (blockStart blocks) := by
  induction h with
  | nil => rfl
  | @cons i block instrs blocks hblock _ ih =>
    have hshift : ∀ n, blockStart (block :: blocks) (n + 1) = block.length + blockStart blocks n := by
      simp [blockStart]
    unfold labelIndex? at ih ⊢
    rw [flatten_cons, findIdx?_append, findIdx?_cons, ih]
    obtain ⟨l', rfl, rfl⟩ | ⟨hnone, -, hblock⟩ := hr _ _ hblock
    · by_cases hl : l' = l
      · simp [Instr.label?, hl, blockStart]
      · simp [Instr.label?, hl, Function.comp_def, hshift, Nat.add_comm]
    · have hfind : block.findIdx? (fun i => decide (i.label? = some l)) = none := by
        simp only [findIdx?_eq_none_iff, decide_eq_false_iff_not]
        exact fun i' hi' => by simp [hblock i' hi']
      simp [hfind, hnone, Function.comp_def, hshift, Nat.add_comm]

end

end MmixCompiler
