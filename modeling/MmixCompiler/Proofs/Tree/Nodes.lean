import Mathlib.Data.List.Nodup
import MmixCompiler.Tree.Walk

/-! The nodes of a tree, each with its level: how many function bodies it is nested in. A walk enters
them in order, so that what holds of every node can be shown from what holds of its parts. -/

namespace MmixCompiler

open List

variable {b : Bool} {k : Nat} {n : Node} {q : Nat × Node} {p : Program}

namespace Node

def walk (bodies : Bool) : Node → List Visit
  | .decl d => d.walk bodies
  | .type t => t.walk bodies
  | .stmt s => s.walk bodies
  | .expr e => e.walk bodies

/-- The parts of a node on level `k` in the order of a walk, each with its level. Parameters belong
to the level of the body. -/
def parts (bodies : Bool) (k : Nat) : Node → List (Nat × Node)
  | .decl (.typed _ _ _ t) => [(k, .type t)]
  | .decl (.proto _ _ params result) => params.map (fun d => (k + 1, .decl d)) ++ [(k, .type result)]
  | .decl (.function _ _ params result body) =>
    params.map (fun d => (k + 1, .decl d)) ++ (k, .type result) ::
      if bodies then [(k + 1, .expr body)] else []
  | .type (.atom _ _) | .type (.named _ _) => []
  | .type (.ptr _ target) => [(k, .type target)]
  | .type (.arr _ length element) => [(k, .expr length), (k, .type element)]
  | .type (.record _ components) => components.map fun d => (k, .decl d)
  | .stmt (.expr _ value) => [(k, .expr value)]
  | .stmt (.assign _ dst src) => [(k, .expr dst), (k, .expr src)]
  | .stmt (.cond _ test yes no) =>
    (k, .expr test) :: (yes.map (fun s => (k, .stmt s)) ++ no.map fun s => (k, .stmt s))
  | .stmt (.loop _ test body) => (k, .expr test) :: body.map fun s => (k, .stmt s)
  | .expr (.lit _ _) | .expr (.name _ _) => []
  | .expr (.call _ _ args) => args.map fun e => (k, .expr e)
  | .expr (.binary _ _ lhs rhs) => [(k, .expr lhs), (k, .expr rhs)]
  | .expr (.unary _ _ operand) => [(k, .expr operand)]
  | .expr (.cast _ value t) => [(k, .expr value), (k, .type t)]
  | .expr (.new _ t) => [(k, .type t)]
  | .expr (.del _ value) => [(k, .expr value)]
  | .expr (.index _ array index) => [(k, .expr array), (k, .expr index)]
  | .expr (.field _ record _) => [(k, .expr record)]
  | .expr (.block _ stmts value decls) =>
    decls.map (fun d => (k, .decl d)) ++ (stmts.map (fun s => (k, .stmt s)) ++ [(k, .expr value)])

end Node

theorem Decl.walkAll_eq {ds : List Decl} : Decl.walkAll b ds = ds.flatMap (Decl.walk b) := by
  induction ds with
  | nil => rfl
  | cons d ds ih => rw [Decl.walkAll, ih, flatMap_cons]

theorem Stmt.walkAll_eq {ss : List Stmt} : Stmt.walkAll b ss = ss.flatMap (Stmt.walk b) := by
  induction ss with
  | nil => rfl
  | cons s ss ih => rw [Stmt.walkAll, ih, flatMap_cons]

theorem Expr.walkAll_eq {es : List Expr} : Expr.walkAll b es = es.flatMap (Expr.walk b) := by
  induction es with
  | nil => rfl
  | cons e es ih => rw [Expr.walkAll, ih, flatMap_cons]

namespace Node

theorem walk_eq (b : Bool) (k : Nat) (n : Node) : n.walk b = n.around ((n.parts b k).flatMap fun q => q.2.walk b) := by
  cases n with
  | decl d =>
    cases d <;> simp [walk, parts, Decl.walk, Decl.walkAll_eq, flatMap_map]
    cases b <;> simp
  | type t => cases t <;> simp [walk, parts, TypeExpr.walk, Decl.walkAll_eq, flatMap_map]
  | stmt s => cases s <;> simp [walk, parts, Stmt.walk, Stmt.walkAll_eq, flatMap_map]
  | expr e =>
    cases e <;> simp [walk, parts, Expr.walk, Decl.walkAll_eq, Stmt.walkAll_eq, Expr.walkAll_eq, flatMap_map]

theorem type_mem_parts (d : Decl) (k : Nat) : (k, .type d.type) ∈ (decl d).parts true k := by
  cases d <;> simp [parts, Decl.type]

theorem sizeOf_parts (h : q ∈ n.parts b k) : sizeOf q.2 < sizeOf n := by
  have hd : ∀ {d : Decl} {ds : List Decl}, d ∈ ds → sizeOf d < sizeOf ds := sizeOf_lt_of_mem
  have hs : ∀ {s : Stmt} {ss : List Stmt}, s ∈ ss → sizeOf s < sizeOf ss := sizeOf_lt_of_mem
  have he : ∀ {e : Expr} {es : List Expr}, e ∈ es → sizeOf e < sizeOf es := sizeOf_lt_of_mem
  cases n with
  | decl d => cases d <;> simp [parts] at h <;> grind
  | type t => cases t <;> simp [parts] at h <;> grind
  | stmt s => cases s <;> simp [parts] at h <;> grind
  | expr e => cases e <;> simp [parts] at h <;> grind

/-- What passes from the parts of a node to the node holds of every node. -/
theorem induct {P : Nat → Node → Prop}
    (h : ∀ k n, (∀ q ∈ n.parts true k, P q.1 q.2) → P k n) (k : Nat) (n : Node) : P k n :=
  h k n fun q hq =>
    have := sizeOf_parts hq
    induct h q.1 q.2
termination_by sizeOf n

/-- The nodes of a tree on level `k`, each with its level, in the order of a walk. -/
def levels (k : Nat) (n : Node) : List (Nat × Node) :=
  (k, n) :: (n.parts true k).attach.flatMap fun q =>
    have := sizeOf_parts q.2
    levels q.1.1 q.1.2
termination_by sizeOf n

theorem levels_eq (k : Nat) (n : Node) : n.levels k = (k, n) :: (n.parts true k).flatMap fun q => q.2.levels q.1 := by
  rw [levels]
  conv_rhs => rw [← attach_map_subtype_val (n.parts true k), flatMap_map]

theorem mem_levels : q ∈ n.levels k ↔ q = (k, n) ∨ ∃ p ∈ n.parts true k, q ∈ p.2.levels p.1 := by
  rw [levels_eq, mem_cons, mem_flatMap]

theorem mem_levels_self : (k, n) ∈ n.levels k := mem_levels.mpr (.inl rfl)

theorem levels_subset (h : q ∈ n.levels k) : q.2.levels q.1 ⊆ n.levels k := by
  induction k, n using induct with
  | h k n ih =>
    rcases mem_levels.mp h with rfl | ⟨p, hp, hq⟩
    · exact List.Subset.refl _
    · exact fun r hr => mem_levels.mpr (.inr ⟨p, hp, ih p hp hq hr⟩)

theorem parts_subset_levels : n.parts true k ⊆ n.levels k := fun p hp =>
  mem_levels.mpr (.inr ⟨p, hp, mem_levels_self⟩)

end Node

/-- The nodes that a walk enters. -/
def entered (vs : List Visit) : List Node :=
  vs.filterMap fun
    | .enter n => some n
    | .leave _ => none

theorem mem_entered {vs : List Visit} : n ∈ entered vs ↔ .enter n ∈ vs := by
  simp only [entered, mem_filterMap]
  constructor
  · rintro ⟨m | m, hm, h⟩
    · cases h
      exact hm
    · cases h
  · exact fun h => ⟨_, h, rfl⟩

theorem entered_around (n : Node) (vs : List Visit) : entered (n.around vs) = n :: entered vs := by
  simp [entered, Node.around, filterMap_append]

theorem entered_flatMap {α : Type} (f : α → List Visit) (xs : List α) :
    entered (xs.flatMap f) = xs.flatMap fun x => entered (f x) := by
  induction xs with
  | nil => rfl
  | cons x xs ih =>
    rw [flatMap_cons, flatMap_cons, ← ih]
    exact filterMap_append

namespace Node

theorem entered_walk (k : Nat) (n : Node) : entered (n.walk true) = (n.levels k).map Prod.snd := by
  induction k, n using induct with
  | h k n ih =>
    rw [walk_eq true k, entered_around, entered_flatMap, levels_eq, map_cons, map_flatMap]
    exact congrArg (n :: ·) (flatMap_congr fun q hq => ih q hq)

theorem leave_mem_walk {m : Node} : .leave m ∈ n.walk true ↔ .enter m ∈ n.walk true := by
  induction (0 : Nat), n using induct with
  | h k n ih =>
    rw [walk_eq true k, around]
    have hparts : (∃ q ∈ n.parts true k, .leave m ∈ q.2.walk true) ↔ ∃ q ∈ n.parts true k, .enter m ∈ q.2.walk true :=
      exists_congr fun q => and_congr_right fun hq => ih q hq
    simp [hparts, or_comm]

end Node

namespace Program

def levels (p : Program) : List (Nat × Node) := p.decls.flatMap fun d => (Node.decl d).levels 0

theorem entered_walk (p : Program) : entered p.walk = p.levels.map Prod.snd := by
  rw [walk, Decl.walkAll_eq, entered_flatMap, levels, map_flatMap]
  exact flatMap_congr fun d _ => Node.entered_walk 0 (.decl d)

theorem enter_mem_walk : .enter n ∈ p.walk ↔ ∃ k, (k, n) ∈ p.levels := by
  rw [← mem_entered, entered_walk, mem_map]
  constructor
  · rintro ⟨q, hq, h⟩
    exact ⟨q.1, h ▸ hq⟩
  · rintro ⟨k, h⟩
    exact ⟨_, h, rfl⟩

theorem leave_mem_walk : .leave n ∈ p.walk ↔ ∃ k, (k, n) ∈ p.levels := by
  rw [← enter_mem_walk, walk, Decl.walkAll_eq]
  simp only [mem_flatMap]
  exact exists_congr fun d => and_congr_right fun _ => Node.leave_mem_walk (n := .decl d)

theorem mem_levels_decl {d : Decl} (h : d ∈ p.decls) : (0, .decl d) ∈ p.levels :=
  mem_flatMap.mpr ⟨d, h, Node.mem_levels_self⟩

theorem parts_subset (h : (k, n) ∈ p.levels) : n.parts true k ⊆ p.levels := by
  obtain ⟨d, hd, h⟩ := mem_flatMap.mp h
  exact fun q hq => mem_flatMap.mpr ⟨d, hd, Node.levels_subset h (Node.parts_subset_levels hq)⟩

/-- Every node has a number of its own. -/
def Numbered (p : Program) : Prop := (p.levels.map fun q => q.2.id).Nodup

theorem Numbered.eq (hp : p.Numbered) {r : Nat × Node} (hq : q ∈ p.levels)
    (hr : r ∈ p.levels) (h : q.2.id = r.2.id) : q = r := inj_on_of_nodup_map hp hq hr h

end Program
end MmixCompiler
