import MmixCompiler.Analysis
import MmixCompiler.Proofs.Ir.Machine
import MmixCompiler.Proofs.Types.Containment

/-! What a program does. Expressions are evaluated strictly from left to right, to a value or to the address of
a place; an assignment finds its address, then its value, and then stores it. Words, memory and calls are those
of a machine, and where variables, strings and functions are is given by an environment. -/

namespace MmixCompiler

variable {Val Mem α β : Type}

/-- Where the code of a function finds things: variables and functions by the numbers of their declarations,
strings by the numbers of their literals. -/
structure Environment (Val : Type) where
  storage : NodeId → Val
  string : NodeId → Val
  function : NodeId → Label
  /-- The frame around a function, which a call passes to it. -/
  link : NodeId → Val

/-- Memory, and the calls made so far with their arguments. -/
structure Situation (Val Mem : Type) where
  mem : Mem
  calls : List (Label × List Val)

/-- How an evaluation ends: with a result, because the number of rounds that a loop may take is spent, or because
it has no meaning. -/
inductive Ending (Val Mem α : Type) where
  | done (a : α) (w : Situation Val Mem)
  | spent (w : Situation Val Mem)
  | stuck

/-- An evaluation, and the uses of names that it comes to, each with the memory that it finds. -/
structure Evaluation (Val Mem α : Type) where
  ending : Ending Val Mem α
  uses : List (NodeId × Mem) := []

namespace Evaluation

def done (a : α) (w : Situation Val Mem) : Evaluation Val Mem α := { ending := .done a w }

def spent (w : Situation Val Mem) : Evaluation Val Mem α := { ending := .spent w }

def stuck : Evaluation Val Mem α := { ending := .stuck }

def bind (x : Evaluation Val Mem α) (f : α → Situation Val Mem → Evaluation Val Mem β) : Evaluation Val Mem β :=
  match x.ending with
  | .done a w => ⟨(f a w).ending, x.uses ++ (f a w).uses⟩
  | .spent w => ⟨.spent w, x.uses⟩
  | .stuck => ⟨.stuck, x.uses⟩

/-- Goes on with something that has to be known. -/
def given (known : Option α) (f : α → Evaluation Val Mem β) : Evaluation Val Mem β :=
  match known with
  | some a => f a
  | none => stuck

def use (id : NodeId) (a : α) (w : Situation Val Mem) : Evaluation Val Mem α := ⟨.done a w, [(id, w.mem)]⟩

/-- What has a value only, and no place. -/
def value (place : Bool) (x : Evaluation Val Mem Val) : Evaluation Val Mem Val := if place then stuck else x

/-- The address of a place, or the word there. -/
def located (m : Ir.Machine Val Mem) (place : Bool) (x : Evaluation Val Mem Val) : Evaluation Val Mem Val :=
  x.bind fun v w => done (if place then v else m.load w.mem v) w

def invoke (m : Ir.Machine Val Mem) (l : Label) (args : List Val) (w : Situation Val Mem) : Evaluation Val Mem Val :=
  done (m.call l args w.mem).1 ⟨(m.call l args w.mem).2, w.calls ++ [(l, args)]⟩

/-- Takes less than the given number of rounds, as long as they ask for another. -/
def iterate (round : Situation Val Mem → Evaluation Val Mem Bool) : Nat → Situation Val Mem → Evaluation Val Mem Unit
  | 0, w => spent w
  | n + 1, w => (round w).bind fun again w => if again then iterate round n w else done () w

end Evaluation

/-- The number that a literal stands for. Strings have addresses instead. -/
def Literal.number? : Literal → Option Int
  | .int value => some value
  | .char value => some value.toNat
  | .bool value => some (if value then 1 else 0)
  | .none | .null => some 0
  | .str _ => Option.none

/-- The bytes of a record before its component of the given name. -/
def Registry.offset (r : Registry) (fields : List (String × TypeId)) (name : String) : Int :=
  ((fields.takeWhile fun f => f.1 ≠ name).map fun f => r.extent f.2).sum

section
variable (m : Ir.Machine Val Mem) (env : Environment Val) (a : Analysis) (fuel : Nat)

open Evaluation

mutual

/-- The value of an expression, or its address if `place` is set. Loops in it take less than `fuel` rounds. -/
def Expr.evaluate (place : Bool) : Expr → Situation Val Mem → Evaluation Val Mem Val
  | .lit mark literal, w =>
    value place (done ((literal.number?.map m.const).getD (env.string mark.id)) w)
  | .name mark _, w =>
    given a.bindings[mark.id]? fun d => located m place (use mark.id (env.storage d.id) w)
  | .call mark _ args, w =>
    given a.bindings[mark.id]? fun d =>
      value place ((use mark.id (env.link d.id) w).bind fun link w =>
        (Expr.evaluateAll args w).bind fun xs w => invoke m (env.function d.id) (link :: xs) w)
  | .binary _ op lhs rhs, w =>
    value place ((lhs.evaluate false w).bind fun x w => (rhs.evaluate false w).bind fun y w =>
      done (m.binary op x y) w)
  | .unary _ .plus operand, w => value place (operand.evaluate false w)
  | .unary _ .minus operand, w =>
    value place ((operand.evaluate false w).bind fun x w => done (m.unary .neg x) w)
  | .unary _ .not operand, w =>
    value place ((operand.evaluate false w).bind fun x w => done (m.unary .not x) w)
  | .unary _ .addr operand, w => value place (operand.evaluate true w)
  | .unary _ .deref operand, w => located m place (operand.evaluate false w)
  | .cast _ operand type, w =>
    given a.typing.typeTypes[type.id]? fun t =>
      value place ((operand.evaluate false w).bind fun x w =>
        done (if a.registry.isChar t then m.binary .mod x (m.const 256) else x) w)
  | .new _ type, w =>
    given a.typing.typeTypes[type.id]? fun t =>
      value place (invoke m (.named "new") [m.const 0, m.const (a.registry.extent t)] w)
  | .del _ operand, w =>
    value place ((operand.evaluate false w).bind fun x w => invoke m (.named "del") [m.const 0, x] w)
  | .index _ array index, w =>
    given ((a.typing.exprTypes[array.id]?).bind a.registry.element?) fun t =>
      located m place ((array.evaluate true w).bind fun base w => (index.evaluate false w).bind fun x w =>
        done (m.binary .add base (m.binary .mul x (m.const (a.registry.extent t)))) w)
  | .field _ record name, w =>
    given ((a.typing.exprTypes[record.id]?).bind a.registry.fields?) fun fields =>
      located m place ((record.evaluate true w).bind fun base w =>
        done (m.binary .add base (m.const (a.registry.offset fields name))) w)
  | .block _ stmts result _, w =>
    value place ((Stmt.executeAll stmts w).bind fun _ w => result.evaluate false w)

def Expr.evaluateAll : List Expr → Situation Val Mem → Evaluation Val Mem (List Val)
  | [], w => done [] w
  | e :: es, w => (e.evaluate false w).bind fun x w => (Expr.evaluateAll es w).bind fun xs w => done (x :: xs) w

def Stmt.execute : Stmt → Situation Val Mem → Evaluation Val Mem Unit
  | .expr _ value, w => (value.evaluate false w).bind fun _ w => done () w
  | .assign _ dst src, w =>
    (dst.evaluate true w).bind fun address w => (src.evaluate false w).bind fun x w =>
      done () { w with mem := m.store w.mem address x }
  | .cond _ test yes no, w =>
    (test.evaluate false w).bind fun x w => if m.holds x then Stmt.executeAll yes w else Stmt.executeAll no w
  | .loop _ test body, w =>
    iterate (fun w => (test.evaluate false w).bind fun x w =>
      if m.holds x then (Stmt.executeAll body w).bind fun _ w => done true w else done false w) fuel w

def Stmt.executeAll : List Stmt → Situation Val Mem → Evaluation Val Mem Unit
  | [], w => done () w
  | s :: ss, w => (s.execute w).bind fun _ w => Stmt.executeAll ss w

end
end

/-- An expression has a value if it does so when loops take enough rounds. -/
def Expr.Means (m : Ir.Machine Val Mem) (env : Environment Val) (a : Analysis) (e : Expr)
    (w : Situation Val Mem) (v : Val) (w' : Situation Val Mem) : Prop :=
  ∃ fuel, (e.evaluate m env a fuel false w).ending = .done v w'

namespace Evaluation

/-- With more rounds an evaluation is the same, or goes on. -/
def Extends (x y : Evaluation Val Mem α) : Prop := (∃ w, x.ending = .spent w) ∨ y = x

theorem Extends.refl (x : Evaluation Val Mem α) : Extends x x := .inr rfl

theorem Extends.bind {x y : Evaluation Val Mem α} {f g : α → Situation Val Mem → Evaluation Val Mem β} (h : Extends x y)
    (hf : ∀ a w, Extends (f a w) (g a w)) : Extends (x.bind f) (y.bind g) := by
  rcases h with ⟨w, h⟩ | rfl
  · exact .inl ⟨w, by simp [Evaluation.bind, h]⟩
  · rcases y with ⟨⟨b, w⟩ | ⟨w⟩ | _, uses⟩
    · rcases hf b w with ⟨w', hspent⟩ | heq
      · exact .inl ⟨w', hspent⟩
      · exact .inr (by simp [Evaluation.bind, heq])
    · exact .inr rfl
    · exact .inr rfl

theorem Extends.value {x y : Evaluation Val Mem Val} (h : Extends x y) (place : Bool) :
    Extends (Evaluation.value place x) (Evaluation.value place y) := by
  cases place
  · exact h
  · exact .refl _

theorem Extends.given {known : Option α} {f g : α → Evaluation Val Mem β} (h : ∀ a, Extends (f a) (g a)) :
    Extends (Evaluation.given known f) (Evaluation.given known g) := by
  cases known
  · exact .refl _
  · exact h _

theorem Extends.located {x y : Evaluation Val Mem Val} (h : Extends x y) (m : Ir.Machine Val Mem) (place : Bool) :
    Extends (Evaluation.located m place x) (Evaluation.located m place y) := h.bind fun _ _ => .refl _

theorem Extends.iterate {f g : Situation Val Mem → Evaluation Val Mem Bool} (h : ∀ w, Extends (f w) (g w)) {n k : Nat}
    (hle : n ≤ k) (w : Situation Val Mem) : Extends (Evaluation.iterate f n w) (Evaluation.iterate g k w) := by
  induction n generalizing k w with
  | zero => exact .inl ⟨w, rfl⟩
  | succ n ih =>
    obtain ⟨k, rfl⟩ : ∃ j, k = j + 1 := ⟨k - 1, by omega⟩
    refine (h w).bind fun again w => ?_
    cases again
    · exact .refl _
    · exact ih (by omega) w

end Evaluation

section
variable (m : Ir.Machine Val Mem) (env : Environment Val) (a : Analysis) {n k : Nat}

open Evaluation

mutual

theorem Expr.evaluate_extends (hle : n ≤ k) (place : Bool) (e : Expr) (w : Situation Val Mem) :
    Extends (e.evaluate m env a n place w) (e.evaluate m env a k place w) := by
  cases e with
  | lit | new => exact .refl _
  | name => exact .refl _
  | call mark name args =>
    refine .given fun d => .value (.bind (.refl _) fun _ w => ?_) place
    exact (Expr.evaluateAll_extends hle args w).bind fun _ _ => .refl _
  | binary mark op lhs rhs =>
    refine .value ((lhs.evaluate_extends hle false w).bind fun _ w => ?_) place
    exact (rhs.evaluate_extends hle false w).bind fun _ _ => .refl _
  | unary mark op operand =>
    cases op with
    | plus => exact .value (operand.evaluate_extends hle false w) place
    | minus | not => exact .value ((operand.evaluate_extends hle false w).bind fun _ _ => .refl _) place
    | addr => exact .value (operand.evaluate_extends hle true w) place
    | deref => exact .located (operand.evaluate_extends hle false w) m place
  | cast mark operand type =>
    exact .given fun t => .value ((operand.evaluate_extends hle false w).bind fun _ _ => .refl _) place
  | del mark operand => exact .value ((operand.evaluate_extends hle false w).bind fun _ _ => .refl _) place
  | index mark array index =>
    refine .given fun t => .located ((array.evaluate_extends hle true w).bind fun _ w => ?_) m place
    exact (index.evaluate_extends hle false w).bind fun _ _ => .refl _
  | field mark record name =>
    exact .given fun fields => .located ((record.evaluate_extends hle true w).bind fun _ _ => .refl _) m place
  | block mark stmts result decls =>
    exact .value ((Stmt.executeAll_extends hle stmts w).bind fun _ w => result.evaluate_extends hle false w) place

theorem Expr.evaluateAll_extends (hle : n ≤ k) (es : List Expr) (w : Situation Val Mem) :
    Extends (Expr.evaluateAll m env a n es w) (Expr.evaluateAll m env a k es w) := by
  cases es with
  | nil => exact .refl _
  | cons e es =>
    refine (e.evaluate_extends hle false w).bind fun _ w => ?_
    exact (Expr.evaluateAll_extends hle es w).bind fun _ _ => .refl _

theorem Stmt.execute_extends (hle : n ≤ k) (s : Stmt) (w : Situation Val Mem) :
    Extends (s.execute m env a n w) (s.execute m env a k w) := by
  cases s with
  | expr mark value => exact (value.evaluate_extends hle false w).bind fun _ _ => .refl _
  | assign mark dst src =>
    refine (dst.evaluate_extends hle true w).bind fun _ w => ?_
    exact (src.evaluate_extends hle false w).bind fun _ _ => .refl _
  | cond mark test yes no =>
    refine (test.evaluate_extends hle false w).bind fun x w => ?_
    split
    · exact Stmt.executeAll_extends hle yes w
    · exact Stmt.executeAll_extends hle no w
  | loop mark test body =>
    refine .iterate (fun w => (test.evaluate_extends hle false w).bind fun x w => ?_) hle w
    split
    · exact (Stmt.executeAll_extends hle body w).bind fun _ _ => .refl _
    · exact .refl _

theorem Stmt.executeAll_extends (hle : n ≤ k) (ss : List Stmt) (w : Situation Val Mem) :
    Extends (Stmt.executeAll m env a n ss w) (Stmt.executeAll m env a k ss w) := by
  cases ss with
  | nil => exact .refl _
  | cons s ss => exact (s.execute_extends hle w).bind fun _ w => Stmt.executeAll_extends hle ss w

end
end

end MmixCompiler
