import MmixCompiler.Proofs.Lowering

/-! The calls in code, each with the number of its arguments. Flattening keeps them, and those in the code of a
function's body are the calls, allocations and releases of its own expressions. -/

namespace MmixCompiler

open List

namespace Ir

open Fresh

mutual

/-- The numbers of arguments of the calls in a tree, in the order in which they are made. -/
def Expr.calls : Expr → List Nat
  | .const _ | .name _ | .temp _ => []
  | .mem address => address.calls
  | .binop _ lhs rhs => lhs.calls ++ rhs.calls
  | .unop _ operand => operand.calls
  | .call _ args => Expr.callsAll args ++ [args.length]
  | .after stmt value => stmt.calls ++ value.calls

def Expr.callsAll : List Expr → List Nat
  | [] => []
  | e :: es => e.calls ++ Expr.callsAll es

def Stmt.calls : Stmt → List Nat
  | .move dst src => dst.calls ++ src.calls
  | .branch test _ _ => test.calls
  | .jump _ | .label _ => []
  | .eval value => value.calls
  | .block stmts => Stmt.callsAll stmts

def Stmt.callsAll : List Stmt → List Nat
  | [] => []
  | s :: ss => s.calls ++ Stmt.callsAll ss

end

theorem Stmt.callsAll_append (ss ts : List Stmt) : Stmt.callsAll (ss ++ ts) = Stmt.callsAll ss ++ Stmt.callsAll ts := by
  induction ss with
  | nil => rfl
  | cons s ss ih => simp [Stmt.callsAll, ih]

theorem Stmt.callsAll_snoc_move (ss : List Stmt) (t : Temp) (e : Expr) :
    Stmt.callsAll (ss ++ [.move (.temp t) e]) = Stmt.callsAll ss ++ e.calls := by
  simp [Stmt.callsAll_append, Stmt.callsAll, Stmt.calls, Expr.calls]

theorem Stmt.mem_callsAll {ss : List Stmt} {n : Nat} : n ∈ Stmt.callsAll ss ↔ ∃ s ∈ ss, n ∈ s.calls := by
  induction ss with
  | nil => simp [Stmt.callsAll]
  | cons s ss ih => simp [Stmt.callsAll, ih]

theorem Expr.callsAll_map_temp (ts : List Temp) : Expr.callsAll (ts.map .temp) = [] := by
  induction ts with
  | nil => rfl
  | cons t ts ih => exact ih

def Part.calls : Part → List Nat
  | .value e | .operand e => e.calls
  | .operands es => Expr.callsAll es
  | .stmt st => st.calls
  | .stmts ss => Stmt.callsAll ss

theorem Flattens.length_operands {es r : List Expr} {s s' : Supply} {c : List Stmt}
    (h : Flattens (.operands es) s c r s') : r.length = es.length := by
  induction es generalizing s c r with
  | nil =>
    cases h
    rfl
  | cons e es ih =>
    cases h with
    | operands _ hs => exact congrArg Nat.succ (ih hs)

theorem Flattens.calls {x : Part} {s s' : Supply} {c : List Stmt} {r : List Expr} (h : Flattens x s c r s') :
    Stmt.callsAll c ++ Expr.callsAll r = x.calls := by
  induction h with
  | const | name | temp | held | noOperands | noStmts | jump | label => rfl
  | mem _ ih | unop _ ih | block _ ih => exact ih
  | @call _ _ _ _ _ ts h ih =>
    have hlength := h.length_operands
    simp_all [Expr.callsAll, Expr.calls, Expr.callsAll_map_temp, Part.calls]
  | binop _ _ ihl ihr | operands _ _ ihl ihr | stmts _ _ ihl ihr =>
    simp_all [Expr.callsAll, Stmt.callsAll, Stmt.callsAll_append, Expr.calls, Part.calls, Expr.callsAll_map_temp]
  | after _ _ ihl ihr =>
    simp only [Expr.callsAll, append_nil, Part.calls] at ihl ihr ⊢
    rw [Stmt.callsAll_append, append_assoc, ihr, ihl, Expr.calls]
  | moved _ ih | assign _ ih | eval _ ih =>
    simp_all [Stmt.callsAll_snoc_move, Stmt.calls, Expr.calls, Expr.callsAll, Part.calls]
  | store _ _ ihl ihr =>
    simp_all [Stmt.callsAll_append, Stmt.callsAll, Stmt.calls, Expr.callsAll, Expr.calls, Part.calls]
  | branch _ ih =>
    simp_all [Stmt.callsAll_append, Stmt.callsAll, Stmt.calls, Expr.callsAll, Expr.calls, Part.calls]

end Ir

open Ir

theorem Frame.calls_chunk {f : Frame} {body : Ir.Expr} {s s' : Supply} {c : CodeChunk}
    (h : Gives (f.chunk body) s c s') : Stmt.callsAll c.stmts = body.calls := by
  obtain ⟨code, last, hbody, rfl⟩ := gives_chunk.mp h
  have hcalls : Stmt.callsAll code ++ (last.calls ++ []) = body.calls := (body.flattens hbody).calls
  simp [Frame.stmts, Stmt.callsAll_append, Stmt.callsAll, Stmt.calls, Expr.calls, ← hcalls]

/-- The number of arguments that an expression by itself passes on in a call, the static link among them. -/
def Expr.arity? : Expr → Option Nat
  | .call _ _ args => some (args.length + 1)
  | .new .. | .del .. => some 2
  | _ => none

namespace Node

def arity? : Node → Option Nat
  | .expr e => e.arity?
  | _ => none

/-- The numbers of arguments of the calls in a tree, without the bodies of functions in it. -/
def arities (n : Node) : List Nat := (entered (n.walk false)).filterMap arity?

theorem arities_eq (k : Nat) (n : Node) :
    n.arities = n.arity?.toList ++ (n.parts false k).flatMap fun q => q.2.arities := by
  have hparts : (entered (n.walk false)).filterMap arity? =
      (n :: (n.parts false k).flatMap fun q => entered (q.2.walk false)).filterMap arity? := by
    rw [walk_eq false k, entered_around, entered_flatMap]
  rw [arities, hparts, filterMap_cons, filterMap_flatMap]
  cases n.arity? <;> rfl

end Node

section
variable {p : Program} {a : Analysis}

theorem Program.Analyzed.arities_type (h : p.Analyzed a) {t : TypeExpr} (ht : p.Has (.type t)) :
    (Node.type t).arities = [] := by
  obtain ⟨_, s, hs, -⟩ := h.typings.resolved
  refine filterMap_eq_nil_iff.mpr fun m hm => ?_
  have hinert := Node.Inert.nodes h.formed hs ht trivial m (Node.mem_nodes_of_walk (mem_entered.mp hm))
  cases m with
  | type | decl | stmt => rfl
  | expr e =>
    obtain ⟨v, hv⟩ := hinert
    cases e with
    | call | new | del => cases hv
    | _ => rfl

theorem Program.Analyzed.arities_decl (h : p.Analyzed a) {d : Decl} (hd : p.Has (.decl d)) :
    (Node.decl d).arities = [] := by
  suffices hall : ∀ k n, p.Has n → (∃ d, n = .decl d) → n.arities = [] from hall 0 _ hd ⟨d, rfl⟩
  intro k n
  induction k, n using Node.induct with
  | h k n ih =>
    rintro hn ⟨d, rfl⟩
    have hforms : ∀ q ∈ (Node.decl d).parts false k, (∃ t, q.2 = .type t) ∨ ∃ e, q.2 = .decl e := by
      cases d <;> simp [Node.parts] <;> grind
    rw [Node.arities_eq k, show (Node.decl d).arity? = none from rfl, Option.toList_none, nil_append,
      flatMap_eq_nil_iff]
    intro q hq
    have hpart := Node.parts_false_subset k _ hq
    rcases hforms q hq with ⟨t, ht⟩ | hdecl
    · rw [ht]
      exact h.arities_type (ht ▸ hn.part hpart)
    · exact ih q hpart (hn.part hpart) hdecl

end

/-- The nodes of a translation, apart from functions, whose bodies have code of their own. -/
def Translation.nodes : Translation → List Node
  | .value e _ | .address e _ => [.expr e]
  | .values es _ => es.map .expr
  | .stmt s _ => [.stmt s]
  | .stmts ss _ => ss.map .stmt
  | .bodies _ => []

def Translation.calls : Translation → List Nat
  | .value _ c | .address _ c => c.calls
  | .values _ cs => Expr.callsAll cs
  | .stmt _ c => c.calls
  | .stmts _ cs => Stmt.callsAll cs
  | .bodies _ => []

theorem Frame.calls_link (f : Frame) (n : Nat) : (f.link n).calls = [] := by
  induction n with
  | zero => rfl
  | succ n ih => exact ih

section
variable {a : Analysis} {l : Layout} {code : Code} {bound : Nat} {f : Frame}

theorem Coded.length_values {es : List Expr} {cs : List Ir.Expr} (h : Coded a l code bound f (.values es cs)) :
    cs.length = es.length := by
  induction es generalizing cs with
  | nil =>
    cases h
    rfl
  | cons e es ih =>
    cases h with
    | values _ hs => exact congrArg Nat.succ (ih hs)

attribute [local simp] Translation.calls Translation.nodes Expr.calls Expr.callsAll Stmt.calls Stmt.callsAll
  Node.arity? Expr.arity? Node.parts

/-- The calls in the code of nodes are those of the nodes. -/
theorem Coded.calls_perm {p : Program} (hp : p.Analyzed a) {t : Translation} (h : Coded a l code bound f t)
    (ht : ∀ n ∈ t.nodes, p.Has n) : t.calls.Perm (t.nodes.flatMap Node.arities) := by
  have hone : ∀ {n : Node}, p.Has n → ∀ m ∈ [n], p.Has m := forall_mem_singleton.mpr
  have hpart : ∀ {n m : Node}, (∀ m ∈ [n], p.Has m) → (0, m) ∈ n.parts false 0 → p.Has m := fun hn hm =>
    (hn _ (mem_singleton_self _)).part (Node.parts_false_subset 0 _ hm)
  have hall : ∀ {n : Node} {α : Type} {wrap : α → Node} {xs : List α}, (∀ m ∈ [n], p.Has m) →
      (∀ x ∈ xs, (0, wrap x) ∈ n.parts false 0) → ∀ m ∈ xs.map wrap, p.Has m := fun hn hxs =>
    forall_mem_map.mpr fun x hx => hpart hn (hxs x hx)
  induction h with
  | number | string | noValues | noStmts | noBodies | noBody | body => exact .refl _
  | load _ ih => exact ih ht
  | name _ _ hc =>
    rw [Translation.nodes, flatMap_singleton, Node.arities_eq 0]
    obtain ⟨label, size, -, rfl⟩ | ⟨n, offset, rfl⟩ := Access.address_cases hc
    · exact .refl _
    · simp [Frame.calls_link]
  | deref _ _ ih | plus _ _ ih | minus _ _ ih | not _ _ ih | addr _ _ ih | eval _ ih =>
    rw [Translation.nodes, flatMap_singleton, Node.arities_eq 0]
    exact ih (hone (hpart ht (mem_singleton_self _)))
  | field _ _ _ _ _ ih =>
    have hcalls := ih (hone (hpart ht (mem_singleton_self _)))
    rw [Translation.nodes, flatMap_singleton, Node.arities_eq 0]
    simpa using hcalls
  | index _ _ _ _ _ ihl ihr | binary _ _ _ ihl ihr | assign _ _ ihl ihr =>
    have hl := ihl (hone (hpart ht (by simp)))
    have hr := ihr (hone (hpart ht (by simp)))
    rw [Translation.nodes, flatMap_singleton, Node.arities_eq 0]
    simpa using hl.append hr
  | @call f mark name args d callee link cs _ _ hlink hargs _ ih =>
    have hcalls := ih (hall ht (by simp))
    have hnone : link.calls = [] := by
      obtain rfl | ⟨n, rfl⟩ := Frame.linkTo_cases hlink
      · rfl
      · exact f.calls_link n
    rw [Translation.nodes, flatMap_singleton, Node.arities_eq 0]
    simp only [Translation.nodes, flatMap_map] at hcalls
    simpa [hnone, hargs.length_values, flatMap_map] using
      (hcalls.append_right [args.length + 1]).trans perm_append_comm
  | cast _ _ _ ih =>
    have hvalue := ih (hone (hpart ht (by simp)))
    have htype := hp.arities_type (hpart ht (mem_cons_of_mem _ mem_cons_self))
    rw [Translation.nodes, flatMap_singleton, Node.arities_eq 0]
    simp only [Translation.calls]
    split <;> simpa [htype] using hvalue
  | new =>
    have htype := hp.arities_type (hpart ht (mem_singleton_self _))
    rw [Translation.nodes, flatMap_singleton, Node.arities_eq 0]
    simp [htype]
  | del _ _ ih =>
    have hcalls := ih (hone (hpart ht (mem_singleton_self _)))
    rw [Translation.nodes, flatMap_singleton, Node.arities_eq 0]
    simp only [Translation.nodes, flatMap_singleton] at hcalls
    simpa using (hcalls.append_right [2]).trans perm_append_comm
  | block _ _ _ _ _ ihstmts ih =>
    have hdecls := flatMap_eq_nil_iff.mpr fun d hd => hp.arities_decl (hpart ht (by simpa using hd))
    have hcalls := (ihstmts (hall ht (by simp))).append (ih (hone (hpart ht (by simp))))
    rw [Translation.nodes, flatMap_singleton, Node.arities_eq 0]
    simpa [flatMap_map, hdecls] using hcalls
  | cond _ _ _ _ ih ihyes ihno =>
    have hyes := ihyes (hall ht (by simp +contextual))
    have hno := ihno (hall ht (by simp +contextual))
    rw [Translation.nodes, flatMap_singleton, Node.arities_eq 0]
    simpa [flatMap_map] using (ih (hone (hpart ht (by simp)))).append (hyes.append hno)
  | loop _ _ _ ih ihbody =>
    have hbody := ihbody (hall ht (by simp +contextual))
    rw [Translation.nodes, flatMap_singleton, Node.arities_eq 0]
    simpa [flatMap_map] using (ih (hone (hpart ht (by simp)))).append hbody
  | values _ _ ih ihs | stmts _ _ ih ihs =>
    obtain ⟨hfirst, hrest⟩ := forall_mem_cons.mp ht
    simpa using (ih (hone hfirst)).append (ihs hrest)

end

end MmixCompiler
