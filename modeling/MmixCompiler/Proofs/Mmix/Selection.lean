import MmixCompiler.Proofs.Ir.Flattening
import MmixCompiler.Proofs.Mmix.Decoding
import MmixCompiler.Proofs.Register.Rewriting

/-! Selection preserves execution. Canonical code over words of 64 bits is followed by the operations
chosen for it: whenever the code is between two statements, the processor stands between their blocks,
with the same words in the temporaries and the same memory outside of the area for arguments. -/

namespace MmixCompiler

open Mmix List

variable {i : Nat} {ops : List Op} {e : Ir.Expr} {args : List Ir.Expr} {dst : Temp} {stmts : List Ir.Stmt}
variable {blocks : List (List Line)} {l : Label}

namespace Ir

def Expr.Operation : Expr → Prop
  | .const _ | .name _ | .temp _ => True
  | .mem e | .unop _ e => ∃ t, e = .temp t
  | .binop _ lhs rhs => (∃ t, lhs = .temp t) ∧ ∃ t, rhs = .temp t
  | .call _ args => ∀ e ∈ args, ∃ t, e = .temp t
  | .after _ _ => False

def Stmt.Canonical : Stmt → Prop
  | .move (.temp _) e => e.Operation
  | .move (.mem a) src => (∃ t, a = .temp t) ∧ ∃ t, src = .temp t
  | .branch test _ _ => ∃ t, test = .temp t
  | .jump _ | .label _ => True
  | _ => False

/-- Statements of canonical forms, with no label twice, and after every branch the label that it goes to
otherwise. -/
structure Canonical (code : List Stmt) : Prop where
  forms : ∀ s ∈ code, s.Canonical
  nodup : (labelsOf code).Nodup
  falls : ∀ k test yes no, code[k]? = some (.branch test yes no) → code[k + 1]? = some (.label no)

/-- The words that a statement takes in the area for arguments: the arguments of a call are there, and
afterwards its result. -/
def Stmt.argWords : Stmt → Nat
  | .move _ (.call _ args) => max 1 args.length
  | _ => 0

end Ir

def truth (p : Prop) [Decidable p] : Octa := if p then 1 else 0

/-- Operators on words: arithmetic wraps around, comparison is signed, and division rounds down. -/
def BinaryOp.word : BinaryOp → Octa → Octa → Octa
  | .or, x, y => x ||| y
  | .xor, x, y => x ^^^ y
  | .and, x, y => x &&& y
  | .eq, x, y => truth (x = y)
  | .ne, x, y => truth (x ≠ y)
  | .lt, x, y => truth (x.toInt < y.toInt)
  | .gt, x, y => truth (x.toInt > y.toInt)
  | .le, x, y => truth (x.toInt ≤ y.toInt)
  | .ge, x, y => truth (x.toInt ≥ y.toInt)
  | .add, x, y => x + y
  | .sub, x, y => x - y
  | .mul, x, y => x * y
  | .div, x, y => quotient x y
  | .mod, x, y => remainder x y

/-- Negation takes truth values to each other. -/
def Ir.UnaryOp.word : Ir.UnaryOp → Octa → Octa
  | .neg, x => -x
  | .not, x => 1 - x

/-- Intermediate code over words of 64 bits. -/
def wordMachine (address : Label → Octa) (call : Label → List Octa → Memory → Octa × Memory) :
    Ir.Machine Octa Memory where
  const n := .ofInt 64 n
  address := address
  load mem a := mem (cell a)
  store mem a x := mem.set (cell a) x
  binary := BinaryOp.word
  unary := Ir.UnaryOp.word
  holds x := x ≠ 0
  call := call

/-- The place of an argument, counted from the stack pointer. -/
def argCell (sp : Octa) (i : Nat) : BitVec 61 := cell (sp + .ofNat 64 (i * 8))

/-- Memory is the same outside of the first `n` places for arguments. -/
def SameOutside (sp : Octa) (n : Nat) (mem mem' : Memory) : Prop :=
  ∀ x, (∀ i < n, x ≠ argCell sp i) → mem' x = mem x

/-- A state of the processor that corresponds to one of canonical code. -/
structure Matches (bound : Nat) (sp : Octa) (n : Nat) (σ : Ir.State Octa Memory) (c : Core) : Prop where
  temps : ∀ t < bound, c.regs (.temp t) = σ.temps t
  stack : c.regs .sp = sp
  mem : SameOutside sp n σ.mem c.mem

/-- What a label is called with is what it does: with the arguments in their places, a call leaves its
result in the first of them, and otherwise changes memory as it should. -/
def Implements (w : World) (call : Label → List Octa → Memory → Octa × Memory) (sp : Octa) (n : Nat)
    (l : Label) (count : Nat) : Prop :=
  ∀ args mem mem', args.length = count → (∀ i x, args[i]? = some x → mem' (argCell sp i) = x) →
    SameOutside sp n mem mem' →
      (w.call l sp mem').1 (argCell sp 0) = (call l args mem).1 ∧
        SameOutside sp n (call l args mem).2 (w.call l sp mem').1

theorem argCell_inj {sp : Octa} {j : Nat} (hi : i < 2 ^ 61) (hj : j < 2 ^ 61)
    (h : argCell sp i = argCell sp j) : i = j := by
  have h := congrArg BitVec.toNat h
  simp only [argCell, cell, BitVec.extractLsb'_toNat, BitVec.toNat_add, BitVec.toNat_ofNat,
    Nat.shiftRight_eq_div_pow] at h
  omega

namespace Matches

variable {bound n : Nat} {sp : Octa} {σ : Ir.State Octa Memory} {c : Core}

theorem setTemp (h : Matches bound sp n σ c) (t : Temp) (x : Octa) :
    Matches bound sp n (σ.setTemp t x) (c.set (.temp t) x) := by
  refine ⟨fun u hu => ?_, ?_, h.mem⟩
  · by_cases heq : u = t
    · simp [Ir.State.setTemp, heq]
    · simp [Ir.State.setTemp, heq, h.temps u hu]
  · rw [← h.stack]
    simp [Reg.sp]

theorem scratch (h : Matches bound sp n σ c) {t : Nat} (ht : bound ≤ t) (x : Octa) :
    Matches bound sp n σ (c.set (.temp t) x) := by
  refine ⟨fun u hu => ?_, ?_, h.mem⟩
  · have hne : u ≠ t := by omega
    simp [hne, h.temps u hu]
  · rw [← h.stack]
    simp [Reg.sp]

end Matches

section
variable {w : World} {c : Core}

theorem toInt_cmp (x y : Octa) :
    (Alu.word .cmp x y).toInt = if x.toInt < y.toInt then -1 else if x = y then 0 else 1 := by
  simp only [Alu.word]
  split
  · rfl
  · split <;> rfl

/-- The operations for a binary operator compute it, also into a register that they read. -/
theorem execAll_binop (op : BinaryOp) (dst l r : Reg) :
    ∃ specials, execAll w (.alu (aluOf op) dst l (.reg r) :: finish dst op) c =
      some { c.set dst (op.word (c.regs l) (c.regs r)) with specials } := by
  have hcmp : ∀ x y : Octa, x.toInt = y.toInt ↔ x = y := fun x y => BitVec.toInt_inj
  cases op with
  | or | xor | and | add | sub | mul | div => exact ⟨_, rfl⟩
  | mod =>
    -- the quotient that stands in the destination is written over
    refine ⟨fun s => if s = .remainder then remainder (c.regs l) (c.regs r) else c.specials s, ?_⟩
    simp only [aluOf, finish, execAll, Op.exec, Value.word, BinaryOp.word, if_true, Core.set]
    congr 2
    funext q
    split <;> rfl
  | eq | ne | lt | gt | le | ge =>
    refine ⟨c.specials, ?_⟩
    simp only [aluOf, finish, execAll, Op.exec, Value.word, BinaryOp.word, Core.set_set, Core.set_regs,
      if_true, Sign.holds, toInt_cmp, truth]
    congr 2
    grind

end

section
variable {w : World} {bound n : Nat} {sp : Octa} {σ : Ir.State Octa Memory} {c : Core} {s s' : Supply}

open Fresh

theorem execAll_store {arg : Nat} {offset : Value} (hoffset : offset.word c = .ofNat 64 (i * 8))
    (harg : arg < bound) (hi : i < n) (h : Matches bound sp n σ c) :
    ∃ c', execAll w [.store (.temp arg) .sp offset] c = some c' ∧ Matches bound sp n σ c' ∧
      c'.mem = c.mem.set (argCell sp i) (σ.temps arg) := by
  refine ⟨⟨c.regs, c.specials, c.mem.set (argCell sp i) (σ.temps arg)⟩, ?_, ⟨h.temps, h.stack, ?_⟩, rfl⟩
  · simp only [execAll, Op.exec, hoffset, h.stack, h.temps arg harg, argCell]
  · intro x hx
    simp only [Memory.set, if_neg (hx i hi)]
    exact h.mem x hx

/-- A small offset stands in the store itself, and another one in a temporary. -/
theorem storeArg_cases {arg : Temp} {offset : Nat} (h : Gives (storeArg arg offset) s ops s') :
    offset < 256 ∧ [.store (.temp arg) .sp (.imm offset)] = ops ∧ s = s' ∨
      loadConst (.temp s.temps) offset ++ [.store (.temp arg) .sp (.reg (.temp s.temps))] = ops ∧
        ⟨s.temps + 1, s.labels⟩ = s' := by
  unfold storeArg at h
  split at h
  · next hle => exact .inl ⟨Nat.lt_succ_of_le hle, gives_pure.mp h⟩
  · simp only [gives_bind, gives_temp, gives_pure] at h
    obtain ⟨_, _, ⟨rfl, rfl⟩, hops, hs⟩ := h
    exact .inr ⟨hops, hs⟩

theorem execAll_storeArg {arg : Nat} (hops : Gives (storeArg arg (i * 8)) s ops s')
    (harg : arg < bound) (hs : bound ≤ s.temps) (hi : i < n) (h : Matches bound sp n σ c) :
    ∃ c', execAll w ops c = some c' ∧ Matches bound sp n σ c' ∧
      c'.mem = c.mem.set (argCell sp i) (σ.temps arg) := by
  obtain ⟨-, rfl, -⟩ | ⟨rfl, -⟩ := storeArg_cases hops
  · exact execAll_store rfl harg hi h
  · rw [execAll_append, execAll_loadConst, Option.bind_some]
    refine execAll_store ?_ harg hi (h.scratch hs _)
    simp only [Value.word, Core.set_regs, if_true, BitVec.ofInt_natCast]

theorem temps_le_of_storeArg {arg : Temp} {offset : Nat} (hops : Gives (storeArg arg offset) s ops s') :
    s.temps ≤ s'.temps := by
  obtain ⟨-, -, rfl⟩ | ⟨-, rfl⟩ := storeArg_cases hops
  · exact Nat.le_refl _
  · exact Nat.le_succ _

theorem straight_storeArg {arg : Temp} {offset : Nat} (hops : Gives (storeArg arg offset) s ops s') :
    ∀ op ∈ ops, op.Straight := by
  obtain ⟨hlt, rfl, -⟩ | ⟨rfl, -⟩ := storeArg_cases hops
  · exact forall_mem_singleton.mpr ⟨hlt, rfl⟩
  · exact forall_mem_append.mpr ⟨fun op => straight_loadConst, forall_mem_singleton.mpr ⟨trivial, rfl⟩⟩

theorem gives_operand {t : Temp} : Gives e.operand s t s' ↔ e = .temp t ∧ s = s' := by
  cases e <;> simp [Ir.Expr.operand]

theorem gives_storeArgs_cons : Gives (Ir.Expr.storeArgs i (e :: args)) s ops s' ↔
    ∃ t first s₁ rest, e = .temp t ∧ Gives (storeArg t (i * 8)) s first s₁ ∧
      Gives (Ir.Expr.storeArgs (i + 1) args) s₁ rest s' ∧ ops = first ++ rest := by
  simp only [Ir.Expr.storeArgs, gives_bind, gives_operand, gives_pure]
  constructor
  · rintro ⟨t, _, ⟨rfl, rfl⟩, first, s₁, hfirst, rest, _, hrest, rfl, rfl⟩
    exact ⟨t, first, s₁, rest, rfl, hfirst, hrest, rfl⟩
  · rintro ⟨t, first, s₁, rest, rfl, hfirst, hrest, rfl⟩
    exact ⟨t, s, ⟨rfl, rfl⟩, first, s₁, hfirst, rest, s', hrest, rfl, rfl⟩

theorem temps_le_of_storeArgs (hops : Gives (Ir.Expr.storeArgs i args) s ops s') : s.temps ≤ s'.temps := by
  induction args generalizing i ops s with
  | nil => exact Nat.le_of_eq (congrArg Supply.temps (gives_pure.mp hops).2)
  | cons e args ih =>
    obtain ⟨t, first, s₁, rest, -, hfirst, hrest, -⟩ := gives_storeArgs_cons.mp hops
    exact Nat.le_trans (temps_le_of_storeArg hfirst) (ih hrest)

theorem straight_storeArgs (hops : Gives (Ir.Expr.storeArgs i args) s ops s') : ∀ op ∈ ops, op.Straight := by
  induction args generalizing i ops s with
  | nil =>
    obtain ⟨rfl, -⟩ := gives_pure.mp hops
    simp
  | cons e args ih =>
    obtain ⟨t, first, s₁, rest, -, hfirst, hrest, rfl⟩ := gives_storeArgs_cons.mp hops
    exact forall_mem_append.mpr ⟨straight_storeArg hfirst, ih hrest⟩

/-- Arguments are stored one after the other, and a later one leaves the earlier ones alone. -/
theorem execAll_storeArgs {ts : List Temp} (hops : Gives (Ir.Expr.storeArgs i (ts.map .temp)) s ops s')
    (hbound : ∀ t ∈ ts, t < bound) (hs : bound ≤ s.temps) (hi : i + ts.length ≤ n) (hn : n ≤ 2 ^ 61)
    (h : Matches bound sp n σ c) :
    ∃ c', execAll w ops c = some c' ∧ Matches bound sp n σ c' ∧
      (∀ j < i, c'.mem (argCell sp j) = c.mem (argCell sp j)) ∧
      ∀ j t, ts[j]? = some t → c'.mem (argCell sp (i + j)) = σ.temps t := by
  induction ts generalizing i ops c s with
  | nil =>
    obtain ⟨rfl, rfl⟩ := gives_pure.mp hops
    exact ⟨c, rfl, h, fun _ _ => rfl, by simp⟩
  | cons t ts ih =>
    obtain ⟨_, first, s₁, rest, heq, hfirst, hrest, rfl⟩ := gives_storeArgs_cons.mp hops
    obtain rfl := Ir.Expr.temp.inj heq
    simp only [mem_cons, forall_eq_or_imp] at hbound
    simp only [length_cons] at hi
    obtain ⟨c₁, hc₁, h₁, hmem⟩ := execAll_storeArg (w := w) hfirst hbound.1 hs (by omega) h
    obtain ⟨c₂, hc₂, h₂, hkept, hargs⟩ := ih hrest hbound.2
      (Nat.le_trans hs (temps_le_of_storeArg hfirst)) (by omega) h₁
    refine ⟨c₂, by rw [execAll_append, hc₁]; exact hc₂, h₂, fun j hj => ?_, fun j u hu => ?_⟩
    · have hne : argCell sp j ≠ argCell sp i := fun heq => by
        have := argCell_inj (by omega) (by omega) heq
        omega
      rw [hkept j (by omega), hmem, Memory.set, if_neg hne]
    · cases j with
      | zero =>
        obtain rfl : t = u := by simpa using hu
        rw [Nat.add_zero, hkept i (by omega), hmem, Memory.set, if_pos rfl]
      | succ j =>
        rw [← hargs j u (by simpa using hu), Nat.add_right_comm]
        rfl

variable {kept : Nat} {call : Label → List Octa → Memory → Octa × Memory}

theorem exists_temps_of_operands (h : ∀ e ∈ args, ∃ t, e = .temp t) : ∃ ts : List Temp, args = ts.map .temp := by
  induction args with
  | nil => exact ⟨[], rfl⟩
  | cons e args ih =>
    obtain ⟨t, rfl⟩ := h e mem_cons_self
    obtain ⟨ts, rfl⟩ := ih fun e he => h e (mem_cons_of_mem _ he)
    exact ⟨t :: ts, rfl⟩

theorem tempsAll_map_temp (ts : List Temp) : Ir.Expr.tempsAll (ts.map .temp) = ts := by
  induction ts with
  | nil => rfl
  | cons t ts ih => simp [Ir.Expr.tempsAll, Ir.Expr.temps, ih]

/-- The expressions that have code, and the operations that compute them. -/
inductive Computed (kept : Nat) (dst : Temp) (s : Supply) : Ir.Expr → List Op → Supply → Prop where
  | const (value : Int) : Computed kept dst s (.const value) (loadConst (.temp dst) value) s
  | name (l : Label) : Computed kept dst s (.name l) [.address (.temp dst) l] s
  | temp (t : Temp) : Computed kept dst s (.temp t) [.alu .or (.temp dst) (.temp t) (.imm 0)] s
  | mem (a : Temp) : Computed kept dst s (.mem (.temp a)) [.load (.temp dst) (.temp a) (.imm 0)] s
  | binop (op : BinaryOp) (l r : Temp) : Computed kept dst s (.binop op (.temp l) (.temp r))
      (.alu (aluOf op) (.temp dst) (.temp l) (.reg (.temp r)) :: finish (.temp dst) op) s
  | neg (t : Temp) : Computed kept dst s (.unop .neg (.temp t)) [.neg (.temp dst) 0 (.temp t)] s
  | not (t : Temp) : Computed kept dst s (.unop .not (.temp t)) [.neg (.temp dst) 1 (.temp t)] s
  | call (l : Label) {args : List Ir.Expr} {stores : List Op} {s' : Supply}
      (h : Gives (Ir.Expr.storeArgs 0 args) s stores s') :
      Computed kept dst s (.call l args) (stores ++ [.call kept l, .load (.temp dst) .sp (.imm 0)]) s'

theorem computed_of_select (h : Gives (e.select kept dst) s ops s') : Computed kept dst s e ops s' := by
  unfold Ir.Expr.select at h
  split at h <;> simp only [gives_bind, gives_operand, gives_pure, not_gives_fail] at h
  · obtain ⟨rfl, rfl⟩ := h; exact .const _
  · obtain ⟨rfl, rfl⟩ := h; exact .name _
  · obtain ⟨rfl, rfl⟩ := h; exact .temp _
  · obtain ⟨_, _, ⟨rfl, rfl⟩, rfl, rfl⟩ := h; exact .mem _
  · obtain ⟨_, _, ⟨rfl, rfl⟩, _, _, ⟨rfl, rfl⟩, rfl, rfl⟩ := h; exact .binop ..
  · obtain ⟨_, _, ⟨rfl, rfl⟩, rfl, rfl⟩ := h; exact .neg _
  · obtain ⟨_, _, ⟨rfl, rfl⟩, rfl, rfl⟩ := h; exact .not _
  · obtain ⟨stores, _, hstores, rfl, rfl⟩ := h; exact .call _ hstores

theorem Computed.temps_le (h : Computed kept dst s e ops s') : s.temps ≤ s'.temps := by
  cases h with
  | call _ h => exact temps_le_of_storeArgs h
  | _ => exact Nat.le_refl _

theorem Computed.straight (h : Computed kept dst s e ops s') : ∀ op ∈ ops, op.Straight := by
  have hload : (Op.load (.temp dst) .sp (.imm 0)).Straight := ⟨Nat.zero_lt_succ 255, rfl⟩
  cases h with
  | const => exact fun op => straight_loadConst
  | call _ h =>
    exact forall_mem_append.mpr ⟨straight_storeArgs h, forall_mem_cons.mpr ⟨⟨trivial, rfl⟩,
      forall_mem_singleton.mpr hload⟩⟩
  | binop op =>
    refine forall_mem_cons.mpr ⟨⟨trivial, rfl⟩, fun o ho => ?_⟩
    cases op <;> simp only [finish, not_mem_nil, mem_singleton] at ho <;> subst ho <;> exact ⟨trivial, rfl⟩
  | name => exact forall_mem_singleton.mpr ⟨trivial, rfl⟩
  | _ => exact forall_mem_singleton.mpr ⟨by simp [Op.Fits, Value.Fits], rfl⟩

/-- A call: the arguments are stored, and the result is fetched from the first place. -/
theorem execAll_call {label : Label} {ts : List Temp} {stores : List Op}
    (hstores : Gives (Ir.Expr.storeArgs 0 (ts.map .temp)) s stores s') (hbound : ∀ t ∈ ts, t < bound)
    (hs : bound ≤ s.temps) (hlen : ts.length ≤ n) (hn : n ≤ 2 ^ 61)
    (hcall : Implements w call sp n label ts.length) (h : Matches bound sp n σ c) :
    ∃ c', execAll w (stores ++ [.call kept label, .load (.temp dst) .sp (.imm 0)]) c = some c' ∧
      Matches bound sp n
        ({ σ with mem := (call label (ts.map σ.temps) σ.mem).2,
                  calls := σ.calls ++ [(label, ts.map σ.temps)] }.setTemp dst
          (call label (ts.map σ.temps) σ.mem).1) c' := by
  obtain ⟨c₁, hc₁, h₁, -, hargs⟩ := execAll_storeArgs (w := w) hstores hbound hs (by omega) hn h
  have harg : ∀ i x, (ts.map σ.temps)[i]? = some x → c₁.mem (argCell sp i) = x := by
    intro i x hx
    obtain ⟨t, ht, rfl⟩ := Option.map_eq_some_iff.mp (getElem?_map .. ▸ hx)
    rw [← hargs i t ht, Nat.zero_add]
  obtain ⟨hresult, hmem⟩ := hcall (ts.map σ.temps) σ.mem c₁.mem (by simp) harg h₁.mem
  have h₂ : Matches bound sp n
      { σ with mem := (call label (ts.map σ.temps) σ.mem).2,
               calls := σ.calls ++ [(label, ts.map σ.temps)] }
      { c₁ with mem := (w.call label sp c₁.mem).1, specials := (w.call label sp c₁.mem).2 } :=
    ⟨h₁.temps, h₁.stack, hmem⟩
  refine ⟨_, ?_, h₂.setTemp dst _⟩
  rw [execAll_append, hc₁, Option.bind_some]
  simp only [execAll, Op.exec, h₁.stack, Value.word, ← hresult, argCell, Nat.zero_mul]

theorem execAll_computed {r : Octa × Ir.State Octa Memory}
    (hops : Computed kept dst s e ops s') (he : e.Operation) (hbound : ∀ t ∈ e.temps, t < bound)
    (hs : bound ≤ s.temps) (hn : n ≤ 2 ^ 61)
    (hcalls : ∀ l args, e = .call l args → args.length ≤ n ∧ Implements w call sp n l args.length)
    (hclear : ∀ a, e = .mem (.temp a) → ∀ i < n, cell (σ.temps a) ≠ argCell sp i)
    (h : Matches bound sp n σ c) (hr : e.operate (wordMachine w.address call) σ = some r) :
    ∃ c', execAll w ops c = some c' ∧ Matches bound sp n (r.2.setTemp dst r.1) c' := by
  have htemp : ∀ t ∈ e.temps, c.regs (.temp t) = σ.temps t := fun t ht => h.temps t (hbound t ht)
  cases hops with
  | const =>
    cases hr
    exact ⟨_, execAll_loadConst .., h.setTemp dst _⟩
  | name =>
    cases hr
    exact ⟨_, rfl, h.setTemp dst _⟩
  | temp t =>
    cases hr
    refine ⟨_, ?_, h.setTemp dst _⟩
    simp [execAll, Op.exec, Alu.word, Value.word, htemp t (by simp [Ir.Expr.temps])]
  | mem a =>
    cases hr
    refine ⟨_, ?_, h.setTemp dst _⟩
    simp [execAll, Op.exec, Value.word, htemp a (by simp [Ir.Expr.temps]), wordMachine, h.mem _ (hclear a rfl)]
  | binop op x y =>
    cases hr
    obtain ⟨specials, hexec⟩ := execAll_binop (w := w) (c := c) op (.temp dst) (.temp x) (.temp y)
    have hdst := h.setTemp dst (op.word (σ.temps x) (σ.temps y))
    rw [htemp x (by simp [Ir.Expr.temps]), htemp y (by simp [Ir.Expr.temps])] at hexec
    exact ⟨_, hexec, hdst.temps, hdst.stack, hdst.mem⟩
  | neg x | not x =>
    cases hr
    refine ⟨_, ?_, h.setTemp dst _⟩
    simp [execAll, Op.exec, htemp x (by simp [Ir.Expr.temps]), wordMachine, Ir.UnaryOp.word]
  | call label hstores =>
    obtain ⟨ts, rfl⟩ := exists_temps_of_operands he
    obtain ⟨hlen, hcall⟩ := hcalls label _ rfl
    rw [Ir.operate_call, Option.some.injEq] at hr
    subst hr
    simp only [Ir.Expr.temps, tempsAll_map_temp] at hbound
    rw [length_map] at hlen hcall
    exact execAll_call hstores hbound hs hlen hn hcall h

end

section
variable {kept : Nat} {s s' : Supply} {st : Ir.Stmt} {block : List Line}

open Fresh

/-- The forms of statements that have code, and the code of each. -/
inductive Chosen (kept : Nat) (s s' : Supply) : Ir.Stmt → List Line → Prop where
  | label {l : Label} (h : s = s') : Chosen kept s s' (.label l) [.label l]
  | jump {l : Label} (h : s = s') : Chosen kept s s' (.jump l) [.op (.jump l)]
  | branch {t : Temp} {yes no : Label} (h : s = s') :
      Chosen kept s s' (.branch (.temp t) yes no) [.op (.branch (.temp t) yes no)]
  | compute {dst : Temp} {e : Ir.Expr} {ops : List Op} (h : Computed kept dst s e ops s') :
      Chosen kept s s' (.move (.temp dst) e) (ops.map .op)
  | store {a t : Temp} (h : s = s') : Chosen kept s s' (.move (.mem (.temp a)) (.temp t))
      [.op (.store (.temp t) (.temp a) (.imm 0))]

theorem chosen_of_select (h : Gives (st.select kept) s block s') : Chosen kept s s' st block := by
  unfold Ir.Stmt.select at h
  split at h
  · obtain ⟨rfl, rfl⟩ := gives_pure.mp h; exact .label rfl
  · obtain ⟨rfl, rfl⟩ := gives_pure.mp h; exact .jump rfl
  · obtain ⟨rfl, rfl⟩ := gives_pure.mp h; exact .branch rfl
  · simp only [gives_bind, gives_pure] at h
    obtain ⟨ops, s₁, hops, rfl, rfl⟩ := h
    exact .compute (computed_of_select hops)
  · obtain ⟨rfl, rfl⟩ := gives_pure.mp h; exact .store rfl
  · exact absurd h not_gives_fail

theorem exists_storeArgs (ts : List Temp) (i : Nat) (s : Supply) :
    ∃ ops s', Gives (Ir.Expr.storeArgs i (ts.map .temp)) s ops s' := by
  induction ts generalizing i s with
  | nil => exact ⟨[], s, gives_pure.mpr ⟨rfl, rfl⟩⟩
  | cons t ts ih =>
    obtain ⟨first, s₁, hfirst⟩ : ∃ ops s', Gives (storeArg t (i * 8)) s ops s' := by
      unfold storeArg
      split
      · exact ⟨_, _, rfl⟩
      · exact ⟨_, _, rfl⟩
    obtain ⟨rest, s₂, hrest⟩ := ih (i + 1) s₁
    exact ⟨first ++ rest, s₂, gives_storeArgs_cons.mpr ⟨t, first, s₁, rest, rfl, hfirst, hrest, rfl⟩⟩

theorem exists_selectExpr (he : e.Operation) (kept : Nat) (dst : Temp) (s : Supply) :
    ∃ ops s', Gives (e.select kept dst) s ops s' := by
  cases e with
  | const | name | temp => exact ⟨_, _, rfl⟩
  | mem e =>
    obtain ⟨t, rfl⟩ := he
    exact ⟨_, _, rfl⟩
  | binop op lhs rhs =>
    obtain ⟨⟨x, rfl⟩, ⟨y, rfl⟩⟩ := he
    exact ⟨_, _, rfl⟩
  | unop op e =>
    obtain ⟨t, rfl⟩ := he
    cases op <;> exact ⟨_, _, rfl⟩
  | call label args =>
    obtain ⟨ts, rfl⟩ := exists_temps_of_operands he
    obtain ⟨ops, s', hops⟩ := exists_storeArgs ts 0 s
    simp only [Ir.Expr.select, gives_bind, gives_pure]
    exact ⟨_, _, ops, s', hops, rfl, rfl⟩
  | after stmt value => exact he.elim

theorem exists_select (hst : st.Canonical) (kept : Nat) (s : Supply) :
    ∃ block s', Gives (st.select kept) s block s' := by
  unfold Ir.Stmt.Canonical at hst
  split at hst
  · next dst e =>
    obtain ⟨ops, s', hops⟩ := exists_selectExpr hst kept dst s
    exact ⟨_, s', gives_bind.mpr ⟨ops, s', hops, gives_pure.mpr ⟨rfl, rfl⟩⟩⟩
  · obtain ⟨⟨a, rfl⟩, ⟨t, rfl⟩⟩ := hst
    exact ⟨_, _, rfl⟩
  · obtain ⟨t, rfl⟩ := hst
    exact ⟨_, _, rfl⟩
  · exact ⟨_, _, rfl⟩
  · exact ⟨_, _, rfl⟩
  · exact hst.elim

theorem Chosen.temps_le (h : Chosen kept s s' st block) : s.temps ≤ s'.temps := by
  cases h with
  | compute h => exact h.temps_le
  | label h | jump h | branch h | store h => exact Nat.le_of_eq (congrArg Supply.temps h)

/-- Operations go on to the next one, apart from those for jumps and branches. -/
theorem Chosen.jumps (h : Chosen kept s s' st block) {op : Op} (hop : .op op ∈ block) : op.Straight ∨
    (∃ l, op = .jump l) ∨
      ∃ t yes no, st = .branch (.temp t) yes no ∧ op = .branch (.temp t) yes no ∧ block = [.op op] := by
  cases h with
  | label => cases mem_singleton.mp hop
  | jump =>
    cases mem_singleton.mp hop
    exact .inr (.inl ⟨_, rfl⟩)
  | branch =>
    cases mem_singleton.mp hop
    exact .inr (.inr ⟨_, _, _, rfl, rfl, rfl⟩)
  | compute h =>
    obtain ⟨op, hop, heq⟩ := mem_map.mp hop
    cases heq
    exact .inl (h.straight op hop)
  | store =>
    cases mem_singleton.mp hop
    exact .inl ⟨Nat.zero_lt_succ 255, rfl⟩

theorem Chosen.fits (h : Chosen kept s s' st block) {op : Op} (hop : .op op ∈ block) : op.Fits := by
  obtain hop | ⟨_, rfl⟩ | ⟨_, _, _, -, rfl, -⟩ := h.jumps hop
  · exact hop.fits
  · trivial
  · trivial

theorem Chosen.labels (h : Chosen kept s s' st block) : (∃ l, st = .label l ∧ block = [.label l]) ∨
      st.label? = none ∧ ∀ line ∈ block, line.instr.label? = none := by
  cases h with
  | label => exact .inl ⟨_, rfl, rfl⟩
  | jump | branch | store => exact .inr ⟨rfl, by simp [Line.instr, Op.instr, Instr.label?]⟩
  | compute => exact .inr ⟨rfl, by simp [Line.instr, Op.instr, Instr.label?]⟩

theorem chosen_between (h : Gives (stmts.mapM (Ir.Stmt.select kept)) s blocks s') : s.temps ≤ s'.temps ∧
    List.Forall₂ (fun st block => ∃ s₁ s₂, s.temps ≤ s₁.temps ∧ s₂.temps ≤ s'.temps ∧ Chosen kept s₁ s₂ st block)
      stmts blocks := by
  induction stmts generalizing s blocks with
  | nil =>
    obtain ⟨rfl, rfl⟩ := gives_mapM_nil.mp h
    exact ⟨Nat.le_refl _, .nil⟩
  | cons st stmts ih =>
    obtain ⟨block, s₁, blocks, hblock, hblocks, rfl⟩ := gives_mapM_cons.mp h
    have hchosen := chosen_of_select hblock
    obtain ⟨hle, hrest⟩ := ih hblocks
    refine ⟨Nat.le_trans hchosen.temps_le hle, .cons ⟨s, s₁, Nat.le_refl _, hle, hchosen⟩ (hrest.imp ?_)⟩
    rintro _ _ ⟨s₂, s₃, hs₂, h⟩
    exact ⟨s₂, s₃, Nat.le_trans hchosen.temps_le hs₂, h⟩

/-- The block of a statement, with temporaries from a number on. -/
def Chooses (kept bound : Nat) (st : Ir.Stmt) (block : List Line) : Prop :=
  ∃ s s', bound ≤ s.temps ∧ Chosen kept s s' st block

theorem chosen_of_mapM {bound : Nat} (h : Gives (stmts.mapM (Ir.Stmt.select kept)) s blocks s') (hs : bound ≤ s.temps) :
    List.Forall₂ (Chooses kept bound) stmts blocks := by
  refine (chosen_between h).2.imp ?_
  rintro st block ⟨s₁, s₂, hs₁, -, hchosen⟩
  exact ⟨s₁, s₂, Nat.le_trans hs hs₁, hchosen⟩

end

theorem Ir.codeAfter_of_getElem? {code : List Stmt} (h : (labelsOf code).Nodup) {k : Nat}
    (hk : code[k]? = some (.label l)) : codeAfter l code = some (code.drop (k + 1)) := by
  obtain ⟨hlt, hget⟩ := List.getElem?_eq_some_iff.mp hk
  have hsplit : code = code.take k ++ .label l :: code.drop (k + 1) := by
    rw [← hget, ← drop_eq_getElem_cons hlt, take_append_drop]
  rw [hsplit] at h
  have hafter := codeAfter_of_nodup h
  rwa [← hsplit] at hafter

/-- A label is in the code where its block begins. -/
theorem labelIndex?_of_codeAfter {kept bound : Nat} (hblocks : List.Forall₂ (Chooses kept bound) stmts blocks)
    {rest : List Ir.Stmt} (h : Ir.codeAfter l stmts = some rest) :
    ∃ k, stmts[k]? = some (.label l) ∧ rest = stmts.drop (k + 1) ∧
      labelIndex? (blocks.flatten.map Line.instr) l = some (blockStart blocks k) := by
  induction hblocks with
  | nil => cases h
  | @cons st block stmts blocks hst _ ih =>
    obtain ⟨s, s', -, hst⟩ := hst
    have hshift : ∀ k, blockStart (block :: blocks) (k + 1) = block.length + blockStart blocks k := by
      simp [blockStart]
    unfold Ir.codeAfter at h
    unfold labelIndex? at ih ⊢
    rw [flatten_cons, map_append, findIdx?_append]
    split at h
    · next hl =>
      obtain rfl := Option.some.inj h
      obtain ⟨l', rfl, rfl⟩ | ⟨hnone, -⟩ := hst.labels
      · obtain rfl : l' = l := by simpa [Ir.Stmt.label?] using hl
        exact ⟨0, rfl, rfl, by simp [Line.instr, Instr.label?, blockStart]⟩
      · simp [hnone] at hl
    · next hl =>
      obtain ⟨k, hk, rfl, hindex⟩ := ih h
      refine ⟨k + 1, by simpa using hk, rfl, ?_⟩
      have hfind : (block.map Line.instr).findIdx? (fun i => decide (i.label? = some l)) = none := by
        simp only [findIdx?_eq_none_iff, decide_eq_false_iff_not, mem_map]
        rintro _ ⟨line, hline, rfl⟩
        obtain ⟨l', rfl, rfl⟩ | ⟨-, hnone⟩ := hst.labels
        · obtain rfl := mem_singleton.mp hline
          exact hl
        · simp [hnone line hline]
      simp [hfind, hindex, hshift, Nat.add_comm, -map_flatten]

/-- Code whose calls do what they should, with an area of `n` words for their arguments. -/
structure Served (w : World) (call : Label → List Octa → Memory → Octa × Memory) (sp : Octa) (n : Nat)
    (code : List Ir.Stmt) : Prop where
  size : n ≤ 2 ^ 61
  fits : ∀ st ∈ code, st.argWords ≤ n
  calls : ∀ dst l args, .move dst (.call l args) ∈ code → Implements w call sp n l args.length

/-- The temporary that has the address of a load, if one comes next. -/
def Ir.nextLoad? : List Ir.Stmt → Option Temp
  | .move _ (.mem (.temp a)) :: _ => some a
  | _ => none

/-- What is loaded next, if anything, is not in the first `n` places for arguments. -/
def LoadsOutside (sp : Octa) (n : Nat) (d : List Ir.Stmt × Ir.State Octa Memory) : Prop :=
  ∀ a ∈ Ir.nextLoad? d.1, ∀ i < n, cell (d.2.temps a) ≠ argCell sp i

instance (sp : Octa) (n : Nat) (d : List Ir.Stmt × Ir.State Octa Memory) : Decidable (LoadsOutside sp n d) :=
  inferInstanceAs (Decidable (∀ a ∈ Ir.nextLoad? d.1, ∀ i < n, cell (d.2.temps a) ≠ argCell sp i))

/-- Control goes where instructions say: to one of the labels in the list of jumps, and to the next
instruction if there are none. -/
def Directed (w : World) (code : List Instr) : Prop :=
  ∀ i x c d, code[i]? = some x → stepInstr w code (i, c) = some d →
    x.jumps = [] ∧ d.1 = i + 1 ∨ ∃ l ∈ x.jumps, labelIndex? code l = some d.1

section
variable {w : World} {kept bound : Nat} {c : Core} {k : Nat}

theorem fits_of_chosen (hblocks : List.Forall₂ (Chooses kept bound) stmts blocks) {op : Op}
    (hop : .op op ∈ blocks.flatten) : op.Fits := by
  obtain ⟨block, hblock, hop⟩ := mem_flatten.mp hop
  obtain ⟨st, -, s, s', -, hchosen⟩ := exists_left_of_forall₂ hblocks hblock
  exact hchosen.fits hop

/-- The label that comes next after a branch is the one that it goes to otherwise. -/
theorem labelIndex?_of_branch (hblocks : List.Forall₂ (Chooses kept bound) stmts blocks)
    (hcanon : Ir.Canonical stmts) {test : Ir.Expr} {yes no : Label} (hk : stmts[k]? = some (.branch test yes no)) :
    labelIndex? (blocks.flatten.map Line.instr) no = some (blockStart blocks (k + 1)) := by
  have hlabel := hcanon.falls k _ _ _ hk
  have hafter := Ir.codeAfter_of_getElem? hcanon.nodup hlabel
  obtain ⟨k', hk', hdrop, hindex⟩ := labelIndex?_of_codeAfter hblocks hafter
  have hlt := (List.getElem?_eq_some_iff.mp hlabel).1
  have hlt' := (List.getElem?_eq_some_iff.mp hk').1
  have hlength := congrArg List.length hdrop
  rw [length_drop, length_drop] at hlength
  obtain rfl : k' = k + 1 := by omega
  exact hindex

theorem directed_of_chosen (w : World) (hblocks : List.Forall₂ (Chooses kept bound) stmts blocks)
    (hcanon : Ir.Canonical stmts) : Directed w (blocks.flatten.map Line.instr) := by
  intro i x c d hx hstep
  rw [stepInstr_lines fun op => fits_of_chosen hblocks] at hstep
  rw [getElem?_map] at hx
  obtain ⟨line, hline, rfl⟩ := Option.map_eq_some_iff.mp hx
  cases line with
  | label l =>
    simp only [stepLine, hline, Option.some.injEq] at hstep
    exact .inl ⟨rfl, congrArg Prod.fst hstep.symm⟩
  | op op =>
    obtain ⟨k, j, block, hblock, hj, rfl⟩ := exists_block_of_getElem? hline
    obtain ⟨st, hst, s, s', -, hchosen⟩ := exists_getElem?_of_forall₂ hblocks.flip hblock
    simp only [stepLine, hline] at hstep
    split at hstep
    · cases hstep
    · next c' hexec =>
      cases hstep
      obtain hop | ⟨l, rfl⟩ | ⟨t, yes, no, rfl, rfl, rfl⟩ := hchosen.jumps (mem_of_getElem? hj)
      · exact .inl ⟨hop.jumps, rfl⟩
      · cases hexec
      · -- the block has nothing else, and the next one is the label
        obtain rfl : j = 0 := by simpa using (List.getElem?_eq_some_iff.mp hj).1
        refine .inr ⟨no, mem_cons_self, ?_⟩
        rw [labelIndex?_of_branch hblocks hcanon hst, blockStart_succ hblock]
        rfl
    · next c' l hexec =>
      obtain ⟨index, hindex, rfl⟩ := Option.map_eq_some_iff.mp hstep
      exact .inr ⟨l, (op.accounted w).jumps c c' l hexec, hindex⟩

end

section
variable {w : World} {call : Label → List Octa → Memory → Octa × Memory} {sp : Octa}
  {n bound kept : Nat} {σ σ' : Ir.State Octa Memory} {c c' : Core} {stmts rest : List Ir.Stmt}
  {blocks : List (List Line)} {block : List Line} {k : Nat}

theorem reaches_op {op : Op} (hblock : blocks[k]? = some [.op op]) (h : op.exec w c = some (c', none)) :
    Reaches w blocks.flatten (blockStart blocks k, c) (blockStart blocks (k + 1), c') := by
  have hline := getElem?_blockStart hblock (k := 0) (by simp)
  rw [blockStart_succ hblock]
  refine .single ?_
  simp only [Nat.add_zero] at hline
  simp [stepLine, hline, h]

theorem reaches_label (hblock : blocks[k]? = some [.label l]) :
    Reaches w blocks.flatten (blockStart blocks k, c) (blockStart blocks (k + 1), c) := by
  have hline := getElem?_blockStart hblock (k := 0) (by simp)
  rw [blockStart_succ hblock]
  refine .single ?_
  simp only [Nat.add_zero] at hline
  simp [stepLine, hline]

section

variable (hblocks : List.Forall₂ (Chooses kept bound) stmts blocks)

include hblocks

theorem reaches_jump {op : Op}
    (hblock : blocks[k]? = some [.op op]) (hop : op.exec w c = some (c, some l))
    (h : Ir.codeAfter l stmts = some rest) :
    ∃ k', rest = stmts.drop k' ∧ Reaches w blocks.flatten (blockStart blocks k, c) (blockStart blocks k', c) := by
  obtain ⟨k', hk', rfl, hindex⟩ := labelIndex?_of_codeAfter hblocks h
  have hline := getElem?_blockStart hblock (k := 0) (by simp)
  simp only [Nat.add_zero] at hline
  have hjump : stepLine w blocks.flatten (blockStart blocks k, c) = some (blockStart blocks k', c) := by
    simp [stepLine, hline, hop, hindex, -map_flatten]
  obtain ⟨block, hlabel, s, s', -, hchosen⟩ := exists_getElem?_of_forall₂ hblocks hk'
  cases hchosen
  exact ⟨k' + 1, rfl, .head hjump (reaches_label hlabel)⟩

theorem reaches_of_step (hcanon : Ir.Canonical stmts) (hbound : ∀ st ∈ stmts, ∀ t ∈ st.temps, t < bound)
    (hserved : Served w call sp n stmts) (hloads : LoadsOutside sp n (stmts.drop k, σ))
    (h : Matches bound sp n σ c)
    (hstep : Ir.step (wordMachine w.address call) stmts (stmts.drop k, σ) = some (rest, σ')) :
    ∃ k' c', rest = stmts.drop k' ∧ Reaches w blocks.flatten (blockStart blocks k, c) (blockStart blocks k', c') ∧
        Matches bound sp n σ' c' := by
  rcases hk : stmts[k]? with _ | st
  · rw [drop_eq_nil_of_le (getElem?_eq_none_iff.mp hk)] at hstep
    cases hstep
  obtain ⟨block, hblock, s, s', hs, hchosen⟩ := exists_getElem?_of_forall₂ hblocks hk
  have hmem : st ∈ stmts := mem_of_getElem? hk
  have hbound := hbound st hmem
  obtain ⟨hlt, rfl⟩ := List.getElem?_eq_some_iff.mp hk
  rw [drop_eq_getElem_cons hlt] at hstep hloads
  generalize stmts[k] = st at *
  cases hchosen with
  | label =>
    cases hstep
    exact ⟨k + 1, c, rfl, reaches_label hblock, h⟩
  | @jump l =>
    obtain ⟨rest, hafter, hrest⟩ := Option.map_eq_some_iff.mp hstep
    cases hrest
    obtain ⟨k', hk', hreaches⟩ := reaches_jump hblocks hblock rfl hafter
    exact ⟨k', c, hk', hreaches, h⟩
  | @branch t yes no =>
    obtain ⟨rest, hafter, hrest⟩ := Option.map_eq_some_iff.mp hstep
    cases hrest
    have ht : c.regs (.temp t) = σ.temps t := h.temps t (hbound t (by simp [Ir.Stmt.temps, Ir.Expr.temps]))
    by_cases hzero : σ.temps t = 0#64
    · -- the label that it goes to otherwise comes next
      have hlabel := hcanon.falls k _ _ _ hk
      have hno : Ir.codeAfter no stmts = some rest := by
        simpa [wordMachine, hzero] using hafter
      rw [Ir.codeAfter_of_getElem? hcanon.nodup hlabel] at hno
      obtain ⟨next, hnext, _, _, -, hchosen⟩ := exists_getElem?_of_forall₂ hblocks hlabel
      cases hchosen
      have hbranch : Reaches w blocks.flatten (blockStart blocks k, c) (blockStart blocks (k + 1), c) :=
        reaches_op hblock (by simp [Op.exec, ht, hzero])
      exact ⟨k + 2, c, (Option.some.inj hno).symm, hbranch.trans (reaches_label hnext), h⟩
    · have hyes : Ir.codeAfter yes stmts = some rest := by
        simpa [wordMachine, hzero] using hafter
      obtain ⟨k', hk', hreaches⟩ := reaches_jump (w := w) (c := c) hblocks hblock (by simp [Op.exec, ht, hzero]) hyes
      exact ⟨k', c, hk', hreaches, h⟩
  | @compute dst e ops hops =>
    obtain ⟨r, hr, hrest⟩ := Option.map_eq_some_iff.mp hstep
    cases hrest
    have he : e.Operation := hcanon.forms _ hmem
    have hcalls : ∀ l args, e = .call l args → args.length ≤ n ∧ Implements w call sp n l args.length := by
      rintro l args rfl
      have hfits : max 1 args.length ≤ n := hserved.fits _ hmem
      exact ⟨by omega, hserved.calls _ l args hmem⟩
    have hclear : ∀ a, e = .mem (.temp a) → ∀ i < n, cell (σ.temps a) ≠ argCell sp i := by
      rintro a rfl
      exact hloads a rfl
    obtain ⟨c', hexec, h'⟩ := execAll_computed hops he
      (fun t ht => hbound t (mem_append_right _ ht)) hs hserved.size hcalls hclear h hr
    refine ⟨k + 1, c', rfl, ?_, h'⟩
    rw [blockStart_succ hblock, length_map]
    refine reaches_of_execAll (fun j op hj => ?_) hexec
    · have hlen : j < (ops.map Line.op).length := by
        rw [length_map]
        exact (List.getElem?_eq_some_iff.mp hj).1
      rw [getElem?_blockStart hblock hlen, getElem?_map, hj]
      rfl
  | @store a t =>
    cases hstep
    have ha : c.regs (.temp a) = σ.temps a := h.temps a (hbound a (by simp [Ir.Stmt.temps, Ir.Expr.temps]))
    have ht : c.regs (.temp t) = σ.temps t := h.temps t (hbound t (by simp [Ir.Stmt.temps, Ir.Expr.temps]))
    refine ⟨k + 1, _, rfl, reaches_op hblock rfl, h.temps, h.stack, fun x hx => ?_⟩
    simp only [Value.word, ha, ht, Ir.State.setMem, wordMachine, Memory.set, BitVec.add_zero, h.mem x hx]

/-- So is a run, as long as it loads nothing from the area for arguments. -/
theorem reaches_of_steps (hcanon : Ir.Canonical stmts) (hbound : ∀ st ∈ stmts, ∀ t ∈ st.temps, t < bound)
    (hserved : Served w call sp n stmts) (h : Matches bound sp n σ c) {j : Nat}
    (hsteps : Ir.Steps (wordMachine w.address call) stmts j (stmts.drop k, σ) (rest, σ'))
    (hloads : ∀ i < j, ∀ d, Ir.Steps (wordMachine w.address call) stmts i (stmts.drop k, σ) d → LoadsOutside sp n d) :
    ∃ k' c', rest = stmts.drop k' ∧ Reaches w blocks.flatten (blockStart blocks k, c) (blockStart blocks k', c') ∧
        Matches bound sp n σ' c' := by
  induction j generalizing k σ c with
  | zero =>
    cases hsteps
    exact ⟨k, c, rfl, .refl, h⟩
  | succ j ih =>
    obtain - | @⟨_, _, ⟨rest₁, σ₁⟩, _, hstep, hsteps⟩ := hsteps
    obtain ⟨k₁, c₁, rfl, hreaches, h₁⟩ :=
      reaches_of_step hblocks hcanon hbound hserved (hloads 0 (Nat.succ_pos j) _ (.refl _)) h hstep
    obtain ⟨k', c', rfl, hreaches', h'⟩ := ih h₁ hsteps fun i hi d hd =>
      hloads (i + 1) (Nat.succ_lt_succ hi) d (.head hstep hd)
    exact ⟨k', c', rfl, hreaches.trans hreaches', h'⟩

end

end

/-- Canonical code has instructions, one block for each statement. What they read, write and jump to is what
the operations do that they read as, and control goes where they say. Whenever the code is between two
statements, running the instructions is between their blocks, with the same temporaries, and the same memory
outside of the area for arguments, as long as the code has loaded nothing from there. -/
theorem select_preserves_execution (kept : Nat) (chunk : CodeChunk) (s : Supply)
    (hcanon : Ir.Canonical chunk.stmts) (habove : ∀ st ∈ chunk.stmts, ∀ t ∈ st.temps, t < s.temps) :
    ∃ blocks s', blocks.length = chunk.stmts.length ∧
      Gives (chunk.select kept) s ⟨chunk.frame, chunk.entry, chunk.exit, blocks.flatten, none, 0⟩ s' ∧
      (∀ o, .oper o ∈ blocks.flatten → ∃ op, o.op? = some op ∧ ∀ w, op.Accounted w o) ∧
      (∀ w, Directed w blocks.flatten) ∧
      ∀ w call sp n, Served w call sp n chunk.stmts → ∀ σ c, Matches s.temps sp n σ c →
        ∀ j rest σ', Ir.Steps (wordMachine w.address call) chunk.stmts j (chunk.stmts, σ) (rest, σ') →
          (∀ i < j, ∀ d, Ir.Steps (wordMachine w.address call) chunk.stmts i (chunk.stmts, σ) d →
            LoadsOutside sp n d) →
          ∃ k c', rest = chunk.stmts.drop k ∧
            Executes w blocks.flatten (0, c) (blockStart blocks k, c') ∧ Matches s.temps sp n σ' c' := by
  obtain ⟨lines, s', hmap⟩ := exists_gives_mapM (fun st hst => exists_select (hcanon.forms st hst) kept) s
  have hblocks := chosen_of_mapM hmap (Nat.le_refl _)
  have hfits : ∀ op, .op op ∈ lines.flatten → op.Fits := fun op => fits_of_chosen hblocks
  have hall : Gives (Ir.Stmt.selectAll kept chunk.stmts) s lines.flatten s' :=
    gives_bind.mpr ⟨lines, s', hmap, gives_pure.mpr ⟨rfl, rfl⟩⟩
  refine ⟨lines.map (List.map Line.instr), s', ?_⟩
  simp only [← map_flatten, blockStart_map]
  refine ⟨?_, gives_bind.mpr ⟨_, s', hall, gives_pure.mpr ⟨rfl, rfl⟩⟩, fun o ho => ?_,
    fun w => directed_of_chosen w hblocks hcanon, ?_⟩
  · rw [length_map, hblocks.length_eq]
  · obtain ⟨line, hline, heq⟩ := mem_map.mp ho
    cases line with
    | label => cases heq
    | op op =>
      cases heq
      exact ⟨op, Op.op?_oper (hfits op hline), fun w => op.accounted w⟩
  intro w call sp n hserved σ c h j rest σ' hsteps hloads
  obtain ⟨k, c', hrest, hreaches, h'⟩ := reaches_of_steps (k := 0) hblocks hcanon habove hserved h hsteps hloads
  exact ⟨k, c', hrest, (executes_lines hfits).mpr hreaches, h'⟩

section
variable {Val Mem : Type} (m : Ir.Machine Val Mem) (code : List Ir.Stmt)

/-- Runs of a given number of steps, computed. -/
def Ir.stepMany : Nat → List Ir.Stmt × Ir.State Val Mem → Option (List Ir.Stmt × Ir.State Val Mem)
  | 0, c => some c
  | n + 1, c => (Ir.step m code c).bind (Ir.stepMany n)

theorem Ir.stepMany_eq_some_iff {n : Nat} {c c' : List Ir.Stmt × Ir.State Val Mem} :
    Ir.stepMany m code n c = some c' ↔ Ir.Steps m code n c c' := by
  induction n generalizing c with
  | zero =>
    refine ⟨fun h => ?_, fun h => ?_⟩
    · cases h
      exact .refl _
    · cases h
      rfl
  | succ n ih =>
    simp only [Ir.stepMany, Option.bind_eq_some_iff, ih]
    constructor
    · rintro ⟨c₁, hstep, h⟩
      exact .head hstep h
    · intro h
      cases h with
      | head hstep h => exact ⟨_, hstep, h⟩

end

namespace Remainder

/-- Adds two to the remainder of -7 by 2, in a call, until the sum is not zero. Then it goes to memory
and back. -/
def chunk : CodeChunk where
  frame := ⟨.named "main", 1, 0, 16, 5, 6⟩
  entry := .fresh 3
  exit := .fresh 4
  stmts := [.label (.fresh 0), .move (.temp 1) (.const (-7)), .move (.temp 2) (.const 2),
    .move (.temp 1) (.binop .mod (.temp 1) (.temp 2)),
    .move (.temp 3) (.call (.named "plus") [.temp 1, .temp 2]),
    .branch (.temp 3) (.fresh 1) (.fresh 2), .label (.fresh 2), .jump (.fresh 0), .label (.fresh 1),
    .move (.mem (.temp 1)) (.temp 3), .move (.temp 4) (.mem (.temp 1))]

def plus : Label → List Octa → Memory → Octa × Memory
  | _, [x, y], mem => (x + y, mem)
  | _, _, mem => (0, mem)

def world : World where
  address _ := 0
  call _ sp mem := (mem.set (argCell sp 0) (mem (argCell sp 0) + mem (argCell sp 1)), fun _ => 0)

def sp : Octa := 1024#64

def core : Core := ⟨fun _ => sp, fun _ => 0, fun _ => 0⟩

def start : List Ir.Stmt × Ir.State Octa Memory := (chunk.stmts, ⟨fun _ => sp, fun _ => 0, []⟩)

theorem canonical : Ir.Canonical chunk.stmts where
  forms := by simp [chunk, Ir.Stmt.Canonical, Ir.Expr.Operation]
  nodup := by decide
  falls := by
    intro k test yes no h
    obtain rfl : k = 5 := by
      by_contra hne
      have hmem : .branch test yes no ∈ chunk.stmts.eraseIdx 5 := mem_eraseIdx_iff_getElem?.mpr ⟨k, hne, h⟩
      simp [chunk] at hmem
    simp [chunk] at h ⊢
    exact h.2.2

theorem served {stmts : List Ir.Stmt} (hcalls : ∀ dst l args, .move dst (.call l args) ∈ stmts → args.length = 2) :
    Served world plus sp 2 stmts where
  size := by decide
  fits := by
    intro st hst
    unfold Ir.Stmt.argWords
    split
    · rw [hcalls _ _ _ hst]
      decide
    · exact Nat.zero_le 2
  calls := by
    intro dst l args hmem args' mem mem' hlen hargs hsame
    obtain ⟨x, y, rfl⟩ := length_eq_two.mp (hlen.trans (hcalls dst l args hmem))
    have hx : mem' (argCell sp 0) = x := hargs 0 x rfl
    have hy : mem' (argCell sp 1) = y := hargs 1 y rfl
    refine ⟨by simp [world, Memory.set, plus, hx, hy], fun z hz => ?_⟩
    simp [world, Memory.set, plus, hz 0, hsame z hz]

theorem matching : Matches 7 sp 2 start.2 core := ⟨fun _ _ => rfl, rfl, fun _ _ => rfl⟩

end Remainder

/-- Control leaves the loop with the remainder 1 and the sum 3, which is found again in memory. -/
theorem remainder_selected : ∃ instrs s' c', Gives (Remainder.chunk.select 4) ⟨7, 5⟩
      ⟨Remainder.chunk.frame, Remainder.chunk.entry, Remainder.chunk.exit, instrs, none, 0⟩ s' ∧
      Executes Remainder.world instrs (0, Remainder.core) (instrs.length, c') ∧
        c'.regs (.temp 1) = 1 ∧ c'.regs (.temp 4) = 3 := by
  obtain ⟨blocks, s', hlen, hselect, -, -, hrun⟩ :=
    select_preserves_execution 4 Remainder.chunk ⟨7, 5⟩ Remainder.canonical (by decide)
  let m := wordMachine Remainder.world.address Remainder.plus
  obtain ⟨⟨rest, τ⟩, hsteps, hend⟩ : ∃ d, Ir.stepMany m Remainder.chunk.stmts 8 Remainder.start = some d ∧
      (d.1.length, d.2.temps 1, d.2.temps 4) = (0, 1, 3) := by
    have h : (Ir.stepMany m Remainder.chunk.stmts 8 Remainder.start).map
        (fun d => (d.1.length, d.2.temps 1, d.2.temps 4)) = some (0, 1, 3) := by decide +kernel
    exact Option.map_eq_some_iff.mp h
  have hloads : ∀ i < 8, ∀ d ∈ Ir.stepMany m Remainder.chunk.stmts i Remainder.start,
      LoadsOutside Remainder.sp 2 d := by decide +kernel
  obtain ⟨k, c', hrest, hexec, h'⟩ := hrun _ _ _ _ (Remainder.served (by simp +contextual [Remainder.chunk])) _ _
    Remainder.matching 8 rest τ ((Ir.stepMany_eq_some_iff _ _).mp hsteps)
    fun i hi d hd => hloads i hi d ((Ir.stepMany_eq_some_iff _ _).mpr hd)
  obtain ⟨hnil, h1, h4⟩ : rest = [] ∧ τ.temps 1 = 1 ∧ τ.temps 4 = 3 := by simpa using hend
  have hk : blocks.length ≤ k := by
    rw [hlen, ← drop_eq_nil_iff, ← hrest, hnil]
  refine ⟨blocks.flatten, s', c', hselect, ?_, ?_, ?_⟩
  · rwa [blockStart, take_of_length_le hk] at hexec
  · rw [h'.temps 1 (by decide), h1]
  · rw [h'.temps 4 (by decide), h4]

namespace Remainder

/-- Loads from the first place for arguments after a call. -/
def reloading : CodeChunk := { chunk with
  stmts := [.move (.temp 3) (.call (.named "plus") [.temp 2, .temp 2]), .move (.temp 4) (.mem (.temp 2))] }

def reloaded : List Op :=
  [.store (.temp 2) .sp (.imm 0), .store (.temp 2) .sp (.imm 8), .call 4 (.named "plus"),
    .load (.temp 3) .sp (.imm 0), .load (.temp 4) (.temp 2) (.imm 0)]

end Remainder

/-- What the call leaves for the caller is found there, and not what was there before. -/
theorem reloading_differs : Ir.Canonical Remainder.reloading.stmts ∧
    (∀ st ∈ Remainder.reloading.stmts, ∀ t ∈ st.temps, t < 7) ∧
    Served Remainder.world Remainder.plus Remainder.sp 2 Remainder.reloading.stmts ∧
    Matches 7 Remainder.sp 2 Remainder.start.2 Remainder.core ∧
    ∃ σ', Ir.Steps (wordMachine Remainder.world.address Remainder.plus) Remainder.reloading.stmts 2
        (Remainder.reloading.stmts, Remainder.start.2) ([], σ') ∧
      ∀ instrs s', Gives (Remainder.reloading.select 4) ⟨7, 5⟩
          ⟨Remainder.reloading.frame, Remainder.reloading.entry, Remainder.reloading.exit, instrs, none, 0⟩ s' →
        ∀ c', Executes Remainder.world instrs (0, Remainder.core) (instrs.length, c') →
          ¬ Matches 7 Remainder.sp 2 σ' c' := by
  refine ⟨⟨by simp [Remainder.reloading, Ir.Stmt.Canonical, Ir.Expr.Operation], by decide, ?_⟩, by decide,
    Remainder.served (by simp +contextual [Remainder.reloading]), Remainder.matching, _,
    .head rfl (.head rfl (.refl _)), fun instrs s' hselect c' hexec h' => ?_⟩
  · intro k test yes no h
    have hmem := mem_of_getElem? h
    simp [Remainder.reloading] at hmem
  have hinstrs : instrs = (Remainder.reloaded.map Line.op).map Line.instr := by
    cases hselect
    rfl
  subst hinstrs
  have hfits : ∀ op, .op op ∈ Remainder.reloaded.map Line.op → op.Fits := by
    simp [Remainder.reloaded, Op.Fits, Value.Fits]
  rw [executes_lines hfits, length_map] at hexec
  have hrun : ∃ d, execAll Remainder.world Remainder.reloaded Remainder.core = some d ∧ d.regs (.temp 4) = 2048 :=
    ⟨_, rfl, by decide +kernel⟩
  obtain ⟨d, hd, hword⟩ := hrun
  have hreaches : Reaches Remainder.world (Remainder.reloaded.map Line.op) (0, Remainder.core) (0 + 5, d) :=
    reaches_of_execAll (by simp) hd
  have hend : c' = d := hexec.end_eq hreaches
  have hold := h'.temps 4 (by decide)
  rw [hend, hword] at hold
  exact absurd hold (by decide +kernel)

end MmixCompiler
