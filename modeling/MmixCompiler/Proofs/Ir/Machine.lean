import MmixCompiler.Ir.Canonical
import Mathlib.Tactic.Common

/-! What intermediate code does. A tree is evaluated strictly from left to right, and a jump goes to
a label of the block that it stands in; canonical code is run one statement at a time, and a jump
goes behind its label. Both are run by the same machine, so that they can be compared. -/

namespace MmixCompiler.Ir

/-- The meaning of words, memory and calls. A call may do anything to memory. -/
structure Machine (Val Mem : Type) where
  const : Int → Val
  address : Label → Val
  load : Mem → Val → Val
  store : Mem → Val → Val → Mem
  binary : BinaryOp → Val → Val → Val
  unary : UnaryOp → Val → Val
  holds : Val → Bool
  call : Label → List Val → Mem → Val × Mem

/-- Temporaries, memory, and the calls made so far with their arguments. -/
structure State (Val Mem : Type) where
  temps : Temp → Val
  mem : Mem
  calls : List (Label × List Val)

variable {Val Mem α β : Type}

namespace State

def setTemp (σ : State Val Mem) (t : Temp) (v : Val) : State Val Mem :=
  { σ with temps := fun u => if u = t then v else σ.temps u }

def setMem (σ : State Val Mem) (mem : Mem) : State Val Mem := { σ with mem }

end State

def Machine.invoke (m : Machine Val Mem) (l : Label) (args : List Val) (σ : State Val Mem) :
    Val × State Val Mem :=
  let r := m.call l args σ.mem
  (r.1, { σ with mem := r.2, calls := σ.calls ++ [(l, args)] })

/-- How an evaluation ends: with a result, on the way to a label, or because the number of jumps that
a block may take is spent. -/
inductive Outcome (Val Mem α : Type) where
  | done (a : α) (σ : State Val Mem)
  | jump (l : Label) (σ : State Val Mem)
  | spent (σ : State Val Mem)

namespace Outcome

def state : Outcome Val Mem α → State Val Mem
  | .done _ σ | .jump _ σ | .spent σ => σ

def bind (o : Outcome Val Mem α) (f : α → State Val Mem → Outcome Val Mem β) : Outcome Val Mem β :=
  match o with
  | .done a σ => f a σ
  | .jump l σ => .jump l σ
  | .spent σ => .spent σ

/-- Runs a block from its beginning or a label, and again from each of its labels that it jumps to. -/
def resume (labels : List Label) (run : Option Label → State Val Mem → Outcome Val Mem Unit) :
    Nat → Option Label → State Val Mem → Outcome Val Mem Unit
  | 0, _, σ => .spent σ
  | n + 1, start, σ =>
    match run start σ with
    | .jump l σ => if l ∈ labels then resume labels run n (some l) σ else .jump l σ
    | o => o

end Outcome

def Stmt.label? : Stmt → Option Label
  | .label l => some l
  | _ => none

def labelsOf (ss : List Stmt) : List Label := ss.filterMap Stmt.label?

section
variable (m : Machine Val Mem) (fuel : Nat)

mutual

/-- The value of an expression. A block in it may take less than `fuel` jumps at a time. -/
def Expr.eval : Expr → State Val Mem → Outcome Val Mem Val
  | .const value, σ => .done (m.const value) σ
  | .name label, σ => .done (m.address label) σ
  | .temp temp, σ => .done (σ.temps temp) σ
  | .mem address, σ => (address.eval σ).bind fun a σ => .done (m.load σ.mem a) σ
  | .binop op lhs rhs, σ =>
    (lhs.eval σ).bind fun x σ => (rhs.eval σ).bind fun y σ => .done (m.binary op x y) σ
  | .unop op operand, σ => (operand.eval σ).bind fun x σ => .done (m.unary op x) σ
  | .call label args, σ =>
    (Expr.evalAll args σ).bind fun xs σ => .done (m.invoke label xs σ).1 (m.invoke label xs σ).2
  | .after stmt value, σ => (stmt.exec σ).bind fun _ σ => value.eval σ

def Expr.evalAll : List Expr → State Val Mem → Outcome Val Mem (List Val)
  | [], σ => .done [] σ
  | e :: es, σ => (e.eval σ).bind fun x σ => (Expr.evalAll es σ).bind fun xs σ => .done (x :: xs) σ

/-- The effect of a statement. A move that is neither into a temporary nor into memory keeps nothing
of its source. -/
def Stmt.exec : Stmt → State Val Mem → Outcome Val Mem Unit
  | .move (.temp t) src, σ => (src.eval σ).bind fun x σ => .done () (σ.setTemp t x)
  | .move (.mem address) src, σ =>
    (address.eval σ).bind fun a σ => (src.eval σ).bind fun x σ =>
      .done () (σ.setMem (m.store σ.mem a x))
  | .move _ src, σ => (src.eval σ).bind fun _ σ => .done () σ
  | .branch test yes no, σ =>
    (test.eval σ).bind fun x σ => .jump (if m.holds x then yes else no) σ
  | .jump label, σ => .jump label σ
  | .label _, σ => .done () σ
  | .eval value, σ => (value.eval σ).bind fun _ σ => .done () σ
  | .block stmts, σ =>
    Outcome.resume (labelsOf stmts) (fun start σ => Stmt.execFrom start stmts σ) fuel none σ

/-- The effect of statements, of those behind a label if one is given. -/
def Stmt.execFrom : Option Label → List Stmt → State Val Mem → Outcome Val Mem Unit
  | none, [], σ => .done () σ
  | some l, [], σ => .jump l σ
  | none, s :: ss, σ => (s.exec σ).bind fun _ σ => Stmt.execFrom none ss σ
  | some l, s :: ss, σ => Stmt.execFrom (if s.label? = some l then none else some l) ss σ

end
end

/-- A tree evaluates to a state if it does so when enough jumps are allowed. -/
def Stmt.Evaluates (m : Machine Val Mem) (s : Stmt) (σ σ' : State Val Mem) : Prop :=
  ∃ fuel, s.exec m fuel σ = .done () σ'

/-- An expression evaluates to a value if it does so when enough jumps are allowed. -/
def Expr.Evaluates (m : Machine Val Mem) (e : Expr) (σ : State Val Mem) (v : Val) (σ' : State Val Mem) : Prop :=
  ∃ fuel, e.eval m fuel σ = .done v σ'

namespace Outcome

/-- With more jumps an outcome is the same, or evaluation goes on. -/
def Extends (o o' : Outcome Val Mem α) : Prop := (∃ σ, o = .spent σ) ∨ o' = o

theorem Extends.refl (o : Outcome Val Mem α) : Extends o o := .inr rfl

theorem Extends.bind {o o' : Outcome Val Mem α} {f g : α → State Val Mem → Outcome Val Mem β} (h : Extends o o')
    (hf : ∀ a σ, Extends (f a σ) (g a σ)) : Extends (o.bind f) (o'.bind g) := by
  rcases h with ⟨σ, rfl⟩ | rfl
  · exact .inl ⟨σ, rfl⟩
  · cases o' with
    | done a σ => exact hf a σ
    | jump l σ => exact .refl _
    | spent σ => exact .refl _

theorem Extends.resume {labels : List Label} {f g : Option Label → State Val Mem → Outcome Val Mem Unit}
    (h : ∀ start σ, Extends (f start σ) (g start σ)) {n k : Nat} (hle : n ≤ k) (start : Option Label)
    (σ : State Val Mem) : Extends (Outcome.resume labels f n start σ) (Outcome.resume labels g k start σ) := by
  induction n generalizing k start σ with
  | zero => exact .inl ⟨σ, rfl⟩
  | succ n ih =>
    obtain ⟨k, rfl⟩ : ∃ j, k = j + 1 := ⟨k - 1, by omega⟩
    unfold Outcome.resume
    rcases h start σ with ⟨σ', hspent⟩ | heq
    · rw [hspent]
      exact .inl ⟨σ', rfl⟩
    · rw [heq]
      split
      · split
        · exact ih (by omega) _ _
        · exact .refl _
      · exact .refl _

end Outcome

section
variable (m : Machine Val Mem) {n k : Nat}

open Outcome

mutual

theorem Expr.eval_extends (hle : n ≤ k) (e : Expr) (σ : State Val Mem) : Extends (e.eval m n σ) (e.eval m k σ) := by
  cases e with
  | const | name | temp => exact .refl _
  | mem address => exact (address.eval_extends hle σ).bind fun _ _ => .refl _
  | binop op lhs rhs =>
    exact (lhs.eval_extends hle σ).bind fun _ σ => (rhs.eval_extends hle σ).bind fun _ _ => .refl _
  | unop op operand => exact (operand.eval_extends hle σ).bind fun _ _ => .refl _
  | call label args => exact (Expr.evalAll_extends hle args σ).bind fun _ _ => .refl _
  | after stmt value => exact (stmt.exec_extends hle σ).bind fun _ σ => value.eval_extends hle σ

theorem Expr.evalAll_extends (hle : n ≤ k) (es : List Expr) (σ : State Val Mem) :
    Extends (Expr.evalAll m n es σ) (Expr.evalAll m k es σ) := by
  cases es with
  | nil => exact .refl _
  | cons e es =>
    exact (e.eval_extends hle σ).bind fun _ σ => (Expr.evalAll_extends hle es σ).bind fun _ _ => .refl _

theorem Stmt.exec_extends (hle : n ≤ k) (s : Stmt) (σ : State Val Mem) : Extends (s.exec m n σ) (s.exec m k σ) := by
  cases s with
  | move dst src =>
    cases dst with
    | mem address =>
      exact (address.eval_extends hle σ).bind fun _ σ => (src.eval_extends hle σ).bind fun _ _ => .refl _
    | _ => exact (src.eval_extends hle σ).bind fun _ _ => .refl _
  | branch test yes no => exact (test.eval_extends hle σ).bind fun _ _ => .refl _
  | jump | label => exact .refl _
  | eval value => exact (value.eval_extends hle σ).bind fun _ _ => .refl _
  | block stmts => exact .resume (fun start σ => Stmt.execFrom_extends hle start stmts σ) hle none σ

theorem Stmt.execFrom_extends (hle : n ≤ k) (start : Option Label) (ss : List Stmt) (σ : State Val Mem) :
    Extends (Stmt.execFrom m n start ss σ) (Stmt.execFrom m k start ss σ) := by
  cases ss with
  | nil => cases start <;> exact .refl _
  | cons s ss =>
    cases start with
    | none => exact (s.exec_extends hle σ).bind fun _ σ => Stmt.execFrom_extends hle none ss σ
    | some l => exact Stmt.execFrom_extends hle _ ss σ

end
end

def Expr.temp? : Expr → Option Temp
  | .temp t => some t
  | _ => none

/-- The value of one operation over temporaries. -/
def Expr.operate (m : Machine Val Mem) (σ : State Val Mem) : Expr → Option (Val × State Val Mem)
  | .const value => some (m.const value, σ)
  | .name label => some (m.address label, σ)
  | .temp t => some (σ.temps t, σ)
  | .mem (.temp t) => some (m.load σ.mem (σ.temps t), σ)
  | .binop op (.temp s) (.temp t) => some (m.binary op (σ.temps s) (σ.temps t), σ)
  | .unop op (.temp t) => some (m.unary op (σ.temps t), σ)
  | .call label args => (args.mapM Expr.temp?).map fun ts => m.invoke label (ts.map σ.temps) σ
  | _ => none

def codeAfter (l : Label) : List Stmt → Option (List Stmt)
  | [] => none
  | s :: ss => if s.label? = some l then some ss else codeAfter l ss

/-- One step of canonical code: what is left to run, and the state. Other code has no step. -/
def step (m : Machine Val Mem) (code : List Stmt) :
    List Stmt × State Val Mem → Option (List Stmt × State Val Mem)
  | (.label _ :: rest, σ) => some (rest, σ)
  | (.jump l :: _, σ) => (codeAfter l code).map (·, σ)
  | (.branch (.temp t) yes no :: _, σ) =>
    (codeAfter (if m.holds (σ.temps t) then yes else no) code).map (·, σ)
  | (.move (.temp t) e :: rest, σ) => (e.operate m σ).map fun r => (rest, r.2.setTemp t r.1)
  | (.move (.mem (.temp a)) (.temp t) :: rest, σ) =>
    some (rest, σ.setMem (m.store σ.mem (σ.temps a) (σ.temps t)))
  | _ => none

inductive Steps (m : Machine Val Mem) (code : List Stmt) :
    Nat → List Stmt × State Val Mem → List Stmt × State Val Mem → Prop where
  | refl (c) : Steps m code 0 c c
  | head {n c c₁ c'} (h : step m code c = some c₁) (t : Steps m code n c₁ c') :
    Steps m code (n + 1) c c'

/-- Code halts in a state if it runs to its end. -/
def Halts (m : Machine Val Mem) (code : List Stmt) (σ τ : State Val Mem) : Prop :=
  ∃ n, Steps m code n (code, σ) ([], τ)

namespace Steps

variable {m : Machine Val Mem} {code : List Stmt} {c c₁ c₂ : List Stmt × State Val Mem} {n k : Nat}

theorem single (h : step m code c = some c₁) : Steps m code 1 c c₁ := .head h (.refl _)

theorem trans (h : Steps m code n c c₁) (h' : Steps m code k c₁ c₂) : Steps m code (n + k) c c₂ := by
  induction h with
  | refl => simpa using h'
  | head h _ ih =>
    rw [Nat.add_right_comm]
    exact .head h (ih h')

theorem split (h : Steps m code n c c₁) (h' : Steps m code (n + k) c c₂) : Steps m code k c₁ c₂ := by
  induction h with
  | refl => simpa using h'
  | head h _ ih =>
    rw [Nat.add_right_comm] at h'
    cases h' with
    | head h₁ t =>
      cases h.symm.trans h₁
      exact ih t

theorem det (h : Steps m code n c c₁) (h' : Steps m code n c c₂) : c₁ = c₂ := by
  have := h.split (k := 0) h'
  cases this
  rfl

/-- A run that has ended is no shorter than any other run from the same place. -/
theorem le_of_halted {σ : State Val Mem} (h : Steps m code n c ([], σ)) (h' : Steps m code k c c₂) : k ≤ n := by
  by_contra hlt
  obtain ⟨d, rfl⟩ : ∃ d, k = n + (d + 1) := ⟨k - n - 1, by omega⟩
  cases h.split h' with
  | head h₁ _ => simp [step] at h₁

end Steps

theorem calls_prefix_of_operate {m : Machine Val Mem} {σ : State Val Mem} {e : Expr}
    {r : Val × State Val Mem} (h : e.operate m σ = some r) : σ.calls <+: r.2.calls := by
  unfold Expr.operate at h
  split at h
  case h_7 =>
    obtain ⟨ts, -, rfl⟩ := Option.map_eq_some_iff.mp h
    exact List.prefix_append ..
  all_goals cases h
  all_goals exact List.prefix_refl _

theorem calls_prefix_of_step {m : Machine Val Mem} {code : List Stmt}
    {c c' : List Stmt × State Val Mem} (h : step m code c = some c') : c.2.calls <+: c'.2.calls := by
  unfold step at h
  split at h
  · cases h; exact List.prefix_refl _
  · obtain ⟨r, -, rfl⟩ := Option.map_eq_some_iff.mp h
    exact List.prefix_refl _
  · obtain ⟨r, -, rfl⟩ := Option.map_eq_some_iff.mp h
    exact List.prefix_refl _
  · obtain ⟨r, hr, rfl⟩ := Option.map_eq_some_iff.mp h
    exact calls_prefix_of_operate hr
  · cases h; exact List.prefix_refl _
  · cases h

theorem Steps.prefix_calls {m : Machine Val Mem} {code : List Stmt} {n : Nat}
    {c c' : List Stmt × State Val Mem} (h : Steps m code n c c') : c.2.calls <+: c'.2.calls := by
  induction h with
  | refl => exact List.prefix_refl _
  | head h _ ih => exact (calls_prefix_of_step h).trans ih

end MmixCompiler.Ir
