import MmixCompiler.Analysis
import MmixCompiler.Proofs.Types.Storage

/-! What is known of a program that has passed analysis: every name in its code is bound, every node has its
type, and what has to denote a place does. -/

namespace MmixCompiler

variable {e : SemanticError}

theorem SemanticFault.OfNames.static {f : SemanticFault} (h : f.OfNames) : f.Static := by
  cases f <;> trivial

theorem orFault_eq_ok {α : Type} {entry : Option α} {fault : InternalFault} {x : α} :
    orFault entry fault = .ok x ↔ entry = some x := by
  cases entry <;> simp [orFault]

namespace Program

variable {p : Program} {a : Analysis}

theorem static_of_bind (h : p.bind = .error e) : e.fault.Static := (ofNames_of_bind h).static

theorem isPlace_of_places {b : Bindings} {places : Std.TreeSet NodeId} (h : p.places b = .ok places) {n : Node}
    (hn : p.Has n) {e : Expr} (he : n.place? = some e) : e.isPlace b := by
  obtain ⟨_, _, hstep⟩ := exists_of_foldlM_eq_ok h (leave_mem_walk.mpr hn)
  simp only [he] at hstep
  split at hstep
  · next hplace => exact hplace
  · obtain ⟨_, hthrow, -⟩ := bind_eq_ok.mp hstep
    cases hthrow

theorem static_of_places {b : Bindings} (h : p.places b = .error e) : e.fault.Static := by
  suffices hall : Results (p.places b) (fun _ => True) fun e => e.fault.Static from hall.of_error h
  refine results_foldlM ?_ trivial
  intro v _ places _
  cases v with
  | enter => trivial
  | leave n =>
    dsimp only
    split
    · split
      · cases n <;> trivial
      · trivial
    · cases n <;> trivial

/-- What analysis has found out about a program. -/
structure Analyzed (p : Program) (a : Analysis) : Prop where
  formed : p.Formed
  bound : p.bind = .ok a.bindings
  typings : p.Typings a.typing
  places : ∀ n, p.Has n → ∀ e, n.place? = some e → e.isPlace a.bindings

theorem Formed.analyzed (hp : p.Formed) (h : p.analyze = .ok a) : p.Analyzed a := by
  simp only [analyze, bind_eq_ok] at h
  obtain ⟨bindings, hbind, typing, htyping, places, hplaces, heq⟩ := h
  cases heq
  exact ⟨hp, hbind, hp.typing hbind htyping, fun n hn e he => isPlace_of_places hplaces hn he⟩

theorem Formed.static_of_analyze (hp : p.Formed) (h : p.analyze = .error e) : e.fault.Static := by
  rcases bind_eq_error.mp h with h | ⟨b, hb, h⟩
  · exact static_of_bind h
  rcases bind_eq_error.mp h with h | ⟨t, -, h⟩
  · rcases bind_eq_error.mp h with h | ⟨s, -, h⟩
    · exact (hp.yields_types hb).of_error h
    · cases h
  rcases bind_eq_error.mp h with h | ⟨_, -, h⟩
  · exact static_of_places h
  · cases h

namespace Analyzed

variable (h : p.Analyzed a)
include h

theorem exists_declType {d : Decl} (hd : p.Has (.decl d)) : ∃ t, a.typing.declTypes[d.id]? = some t := by
  obtain ⟨_, s, hs, -, -, hdecls, -⟩ := h.typings.resolved
  rw [hdecls]
  exact (hs.decls d hd).imp fun _ h => h.1

theorem exists_declBytes {d : Decl} (hd : p.Has (.decl d)) : ∃ b, a.declBytes d = .ok b ∧ 0 ≤ b := by
  obtain ⟨t, ht⟩ := h.exists_declType hd
  refine ⟨a.registry.bytes t, ?_, Registry.bytes_nonneg h.typings.solid t⟩
  rw [Analysis.declBytes, Analysis.declType, ht]
  rfl

theorem exists_typeExprType {t : TypeExpr} (ht : p.Has (.type t)) : ∃ u, a.typing.typeTypes[t.id]? = some u := by
  obtain ⟨_, s, hs, -, -, -, htypes⟩ := h.typings.resolved
  rw [htypes]
  exact (hs.types t ht).imp fun _ h => h.1

theorem exists_exprType {k : Nat} {e : Expr} (he : p.InCode (k, .expr e)) :
    ∃ t, a.typing.exprTypes[e.id]? = some t := by
  have htyped := h.typings.code _ he
  cases e with
  | index =>
    obtain ⟨_, t, -, -, ht⟩ := htyped
    exact ⟨t, ht⟩
  | field =>
    obtain ⟨_, _, _, t, -, -, -, -, -, ht⟩ := htyped
    exact ⟨t, ht⟩
  | cast =>
    obtain ⟨t, ht, -⟩ := htyped
    exact ⟨t, ht⟩
  | _ => exact htyped

theorem exists_exprBytes {k : Nat} {e : Expr} (he : p.InCode (k, .expr e)) :
    ∃ b, a.exprBytes e.mark = .ok b ∧ 0 ≤ b := by
  obtain ⟨t, ht⟩ := h.exists_exprType he
  refine ⟨a.registry.bytes t, ?_, Registry.bytes_nonneg h.typings.solid t⟩
  rw [Analysis.exprBytes, Analysis.exprType, show a.typing.exprTypes[e.mark.id]? = some t from ht]
  rfl

theorem exists_binding {k : Nat} {e : Expr} (he : p.InCode (k, .expr e)) {name : String} {category : Category}
    (huse : (Node.expr e).use? = some (name, category)) :
    ∃ d, a.binding e.mark = .ok d ∧ d.category = category ∧ d.Visible ∧ ∃ j ≤ k, p.InCode (j, .decl d) := by
  obtain ⟨d, hd, -, hcategory, hvisible, hlevel⟩ :=
    Program.exists_binding h.formed h.bound (InCode.exists_scoped h.formed he) huse
  refine ⟨d, ?_, hcategory, hvisible, hlevel⟩
  rw [Analysis.binding, show a.bindings[e.mark.id]? = some d from hd]
  rfl

end Analyzed

end Program

end MmixCompiler
