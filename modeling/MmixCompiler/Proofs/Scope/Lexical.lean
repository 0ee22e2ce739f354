import MmixCompiler.Proofs.Tree.Parsing
import MmixCompiler.Scope.Binding

/-! Names are bound lexically. Every node of a program stands in scopes: the declarations of the blocks
around it, the parameters of the functions whose bodies it is in, and the top level. A program is bound
exactly if no scope declares a name twice and every use finds a declaration of the category that it
expects; it is then bound to the one in the nearest scope. -/

namespace MmixCompiler

open List

variable {Γ : Surroundings} {q : Surroundings × Node} {s : Scopes} {d : Decl} {ds : List Decl} {name : String}
variable {p : Program}

/-- The name that a node uses, and the category that it expects. -/
def Node.use? : Node → Option (String × Category)
  | .expr (.name _ name) => some (name, .variable)
  | .expr (.call _ name _) => some (name, .function)
  | .type (.named _ name) => some (name, .type)
  | _ => none

/-- The declarations of the scopes around a node, the innermost scope first. -/
abbrev Surroundings := List (List Decl)

/-- The declaration of a name in the nearest scope that has one. -/
inductive Nearest (name : String) : Surroundings → Decl → Prop where
  | here {scope : List Decl} {outer : Surroundings} {d : Decl} (hd : d ∈ scope)
      (hname : d.name = name) : Nearest name (scope :: outer) d
  | outside {scope : List Decl} {outer : Surroundings} {d : Decl} (hnone : ∀ e ∈ scope, e.name ≠ name)
      (hd : Nearest name outer d) : Nearest name (scope :: outer) d

namespace Node

/-- The parts of a node that stands in the given scopes, each with the scopes that it stands in. A block
opens a scope for all of its parts, a function with a body one for the body only. -/
def situatedParts (Γ : Surroundings) : Node → List (Surroundings × Node)
  | .decl (.function _ _ params result body) =>
    params.map (fun d => (Γ, .decl d)) ++ [(Γ, .type result), (params :: Γ, .expr body)]
  | .expr (.block _ stmts value decls) =>
    decls.map (fun d => (decls :: Γ, .decl d)) ++ (stmts.map (fun s => (decls :: Γ, .stmt s)) ++
      [(decls :: Γ, .expr value)])
  | n => (n.parts true 0).map fun q => (Γ, q.2)

theorem map_snd_situatedParts (Γ : Surroundings) (k : Nat) (n : Node) :
    (n.situatedParts Γ).map Prod.snd = (n.parts true k).map Prod.snd := by
  cases n with
  | decl d => cases d <;> simp [situatedParts, parts]
  | type t => cases t <;> simp [situatedParts, parts]
  | stmt s => cases s <;> simp [situatedParts, parts, Function.comp_def]
  | expr e => cases e <;> simp [situatedParts, parts, Function.comp_def]

theorem sizeOf_situatedParts {n : Node} (h : q ∈ n.situatedParts Γ) : sizeOf q.2 < sizeOf n := by
  have hmem : q.2 ∈ (n.parts true 0).map Prod.snd := map_snd_situatedParts Γ 0 n ▸ mem_map_of_mem h
  obtain ⟨r, hr, heq⟩ := mem_map.mp hmem
  exact heq ▸ sizeOf_parts hr

/-- The nodes of a tree in the given scopes, each with the scopes that it stands in, in the order of a
walk. -/
def situated (Γ : Surroundings) (n : Node) : List (Surroundings × Node) :=
  (Γ, n) :: (n.situatedParts Γ).attach.flatMap fun q =>
    have := sizeOf_situatedParts q.2
    situated q.1.1 q.1.2
termination_by sizeOf n

theorem situated_eq (Γ : Surroundings) (n : Node) :
    n.situated Γ = (Γ, n) :: (n.situatedParts Γ).flatMap fun q => q.2.situated q.1 := by
  rw [situated]
  conv_rhs => rw [← attach_map_subtype_val (n.situatedParts Γ), flatMap_map]

/-- What passes from the parts of a node in their scopes to the node holds of every node. -/
theorem situated_induct {P : Surroundings → Node → Prop}
    (h : ∀ Γ n, (∀ q ∈ n.situatedParts Γ, P q.1 q.2) → P Γ n) (Γ : Surroundings) (n : Node) : P Γ n :=
  h Γ n fun q hq =>
    have := sizeOf_situatedParts hq
    situated_induct h q.1 q.2
termination_by sizeOf n

theorem map_snd_situated (Γ : Surroundings) (n : Node) : (n.situated Γ).map Prod.snd = n.nodes := by
  induction Γ, n using situated_induct with
  | h Γ n ih =>
    have hparts : ((n.parts true 0).flatMap fun q => q.2.nodes) =
        ((n.parts true 0).map Prod.snd).flatMap nodes := by rw [flatMap_map]
    rw [situated_eq, nodes_eq, map_cons, map_flatMap, hparts, ← map_snd_situatedParts Γ 0 n, flatMap_map]
    exact congrArg (n :: ·) (flatMap_congr fun q hq => ih q hq)

end Node

def Program.situated (p : Program) : List (Surroundings × Node) :=
  p.decls.flatMap fun d => (Node.decl d).situated [p.decls]

theorem Program.map_snd_situated (p : Program) : p.situated.map Prod.snd = entered p.walk := by
  rw [Program.situated, map_flatMap, Program.walk, Decl.walkAll_eq, entered_flatMap]
  exact flatMap_congr fun d _ => Node.map_snd_situated _ _

/-- No two declarations of the scope that a node opens have the same name. -/
def Node.DeclaresOnce : Node → Prop
  | .decl (.function _ _ params _ _) => (params.map Decl.name).Nodup
  | .expr (.block _ _ _ decls) => (decls.map Decl.name).Nodup
  | _ => True

/-- No scope of the program declares a name twice, and every use of a name has a declaration in a scope
around it, the nearest of which is of the category that the use expects. -/
structure Program.LexicallyScoped (p : Program) : Prop where
  top : (p.decls.map Decl.name).Nodup
  once : ∀ q ∈ p.situated, q.2.DeclaresOnce
  declared : ∀ q ∈ p.situated, ∀ name category, q.2.use? = some (name, category) →
    ∃ d, Nearest name q.1 d
  category : ∀ q ∈ p.situated, ∀ name category, q.2.use? = some (name, category) →
    ∀ d, Nearest name q.1 d → d.category = category

/-- Faults of names. -/
def SemanticFault.OfNames : SemanticFault → Prop
  | .redeclaration _ | .undeclared _ | .wrongCategory .. => True
  | _ => False

namespace Scopes

theorem ofNames_of_declare {e : SemanticError} (h : s.declare ds = .error e) : e.fault.OfNames := by
  suffices hall : Results (s.declare ds) (fun _ => True) fun e => e.fault.OfNames from hall.of_error h
  refine results_foldlM ?_ trivial
  intro d _ s _
  unfold insert
  split <;> trivial

theorem ofNames_of_lookup {category : Category} {position : Position} {e : SemanticError}
    (h : s.lookup name category position = .error e) : e.fault.OfNames := by
  unfold lookup at h
  split at h
  · cases h
    trivial
  · split at h <;> cases h
    trivial

theorem insert_eq_ok {s' : Scopes} :
    s.insert d = .ok s' ↔ (∀ e ∈ s.inner, e.name ≠ d.name) ∧ s' = ⟨d :: s.inner, s.outer⟩ := by
  unfold insert Scope.find?
  split
  · next e he =>
    have hname : e.name = d.name := by simpa using find?_some he
    simpa using fun h => absurd hname (h e (mem_of_find?_eq_some he))
  · next he =>
    have hnone : ∀ e ∈ s.inner, e.name ≠ d.name := by simpa using he
    simpa [eq_comm (a := s')] using fun _ => hnone

theorem declare_eq_ok {s' : Scopes} :
    s.declare ds = .ok s' ↔ (ds.map Decl.name).Nodup ∧ (∀ d ∈ ds, ∀ e ∈ s.inner, e.name ≠ d.name) ∧
      s' = ⟨ds.reverse ++ s.inner, s.outer⟩ := by
  induction ds generalizing s with
  | nil => simp [declare, pure, Except.pure, eq_comm]
  | cons d ds ih =>
    have hcons : s.declare (d :: ds) = s.insert d >>= fun s₁ => s₁.declare ds := foldlM_cons
    rw [hcons, bind_eq_ok]
    simp only [insert_eq_ok, ih, map_cons, nodup_cons, mem_map, forall_mem_cons,
      reverse_cons, append_assoc, singleton_append]
    constructor
    · rintro ⟨_, ⟨hfresh, rfl⟩, hnodup, hapart, rfl⟩
      refine ⟨⟨?_, hnodup⟩, ⟨hfresh, fun e he f hf => ?_⟩, rfl⟩
      · rintro ⟨e, he, hname⟩
        exact hapart e he d mem_cons_self hname.symm
      · exact hapart e he f (mem_cons_of_mem _ hf)
    · rintro ⟨⟨hd, hnodup⟩, ⟨hfresh, hapart⟩, rfl⟩
      refine ⟨_, ⟨hfresh, rfl⟩, hnodup, fun e he => forall_mem_cons.mpr ⟨?_, hapart e he⟩, rfl⟩
      exact fun hname => hd ⟨e, he, hname.symm⟩

/-- The open scopes are the given ones, in none of which a name is declared twice. -/
structure Mirrors (s : Scopes) (Γ : Surroundings) : Prop where
  lists : s.inner :: s.outer = Γ.map List.reverse
  once : ∀ scope ∈ Γ, (scope.map Decl.name).Nodup

theorem push_declare {s' : Scopes} (h : s.Mirrors Γ) : s.push.declare ds = .ok s' ↔ s'.Mirrors (ds :: Γ) := by
  rw [declare_eq_ok]
  constructor
  · rintro ⟨hnodup, -, rfl⟩
    refine ⟨?_, forall_mem_cons.mpr ⟨hnodup, h.once⟩⟩
    simp [push, h.lists]
  · intro h'
    refine ⟨h'.once ds mem_cons_self, by simp [push], ?_⟩
    have hlists := h'.lists
    rw [map_cons, ← h.lists, List.cons.injEq] at hlists
    rcases s' with ⟨inner, outer⟩
    simpa [push] using hlists

/-- Closing a scope leaves those around it as they were. -/
theorem pop_of_declare {s' : Scopes} (h : s.push.declare ds = .ok s') : s'.pop = s := by
  obtain ⟨-, -, rfl⟩ := declare_eq_ok.mp h
  rfl

theorem findSome?_iff (honce : ∀ scope ∈ Γ, (scope.map Decl.name).Nodup) :
    (Γ.map List.reverse).findSome? (Scope.find? · name) = some d ↔ Nearest name Γ d := by
  induction Γ with
  | nil =>
    constructor
    · intro h
      cases h
    · intro h
      cases h
  | cons scope Γ ih =>
    obtain ⟨hscope, honce⟩ := forall_mem_cons.mp honce
    have hfind : ∀ e, Scope.find? scope.reverse name = some e ↔ e ∈ scope ∧ e.name = name := fun e => by
      constructor
      · intro h
        exact ⟨mem_reverse.mp (mem_of_find?_eq_some h), by simpa using find?_some h⟩
      · rintro ⟨he, rfl⟩
        cases hsome : Scope.find? scope.reverse e.name with
        | none => simpa using find?_eq_none.mp hsome e (mem_reverse.mpr he)
        | some e' =>
          have hmem : e' ∈ scope := mem_reverse.mp (mem_of_find?_eq_some hsome)
          have hname : e'.name = e.name := by simpa using find?_some hsome
          rw [inj_on_of_nodup_map hscope hmem he hname]
    rw [map_cons, findSome?_cons]
    cases hsome : Scope.find? scope.reverse name with
    | some e =>
      obtain ⟨he, hname⟩ := (hfind e).mp hsome
      constructor
      · rintro ⟨⟩
        exact .here he hname
      · rintro (⟨hd, hname'⟩ | ⟨hnone, -⟩)
        · rw [← hsome, (hfind d).mpr ⟨hd, hname'⟩]
        · exact absurd hname (hnone e he)
    | none =>
      have hnone : ∀ e ∈ scope, e.name ≠ name := fun e he hname => by
        simpa [hsome] using (hfind e).mpr ⟨he, hname⟩
      constructor
      · exact fun h => .outside hnone ((ih honce).mp h)
      · rintro (⟨hd, hname⟩ | ⟨-, h⟩)
        · exact absurd hname (hnone d hd)
        · exact (ih honce).mpr h

theorem find?_iff (h : s.Mirrors Γ) : s.find? name = some d ↔ Nearest name Γ d := by
  rw [find?, h.lists]
  exact findSome?_iff h.once

theorem lookup_eq_ok (h : s.Mirrors Γ) {category : Category} {position : Position} :
    s.lookup name category position = .ok d ↔ Nearest name Γ d ∧ d.category = category := by
  rw [← find?_iff h, lookup]
  cases s.find? name with
  | none => simp
  | some e =>
    by_cases hcategory : e.category = category
    · simpa [hcategory] using fun heq : e = d => heq ▸ hcategory
    · simpa [hcategory] using fun heq : e = d => heq ▸ hcategory

end Scopes

/-- The binding that a node calls for by itself, in the scopes that it stands in. -/
def Binds (q : Surroundings × Node) (b : List (NodeId × Decl)) : Prop :=
  q.2.DeclaresOnce ∧ match q.2.use? with
    | none => b = []
    | some (name, category) =>
      ∃ d, Nearest name q.1 d ∧ d.category = category ∧ b = [(q.2.id, d)]

/-- The bindings that nodes call for, one after the other. -/
inductive Resolves : List (Surroundings × Node) → List (NodeId × Decl) → Prop where
  | nil : Resolves [] []
  | cons {q : Surroundings × Node} {qs : List (Surroundings × Node)} {b bs : List (NodeId × Decl)}
      (hq : Binds q b) (hqs : Resolves qs bs) : Resolves (q :: qs) (b ++ bs)

theorem resolves_append {qs rs : List (Surroundings × Node)} {bs : List (NodeId × Decl)} :
    Resolves (qs ++ rs) bs ↔ ∃ b₁ b₂, bs = b₁ ++ b₂ ∧ Resolves qs b₁ ∧ Resolves rs b₂ := by
  induction qs generalizing bs with
  | nil =>
    constructor
    · exact fun h => ⟨[], bs, rfl, .nil, h⟩
    · rintro ⟨_, b₂, rfl, ⟨⟩, h⟩
      exact h
  | cons q qs ih =>
    constructor
    · rintro (_ | ⟨hq, h⟩)
      obtain ⟨b₁, b₂, rfl, h₁, h₂⟩ := ih.mp h
      exact ⟨_, b₂, (append_assoc ..).symm, .cons hq h₁, h₂⟩
    · rintro ⟨_, b₂, rfl, _ | ⟨hq, h₁⟩, h₂⟩
      rw [append_assoc]
      exact .cons hq (ih.mpr ⟨_, b₂, rfl, h₁, h₂⟩)

namespace Naming

variable {names : Names} {inside : Naming Unit}

theorem run_use {mark : Mark} {category : Category} : (use mark name category).run names =
    names.scopes.lookup name category mark.position >>= fun d =>
      .ok ((), { names with bindings := names.bindings.insert mark.id d }) := by
  cases h : names.scopes.lookup name category mark.position <;> simp [use, h] <;> rfl

theorem run_declare : (declare ds).run names =
    names.scopes.declare ds >>= fun scopes => .ok ((), { names with scopes }) := by
  cases h : names.scopes.declare ds <;> simp [declare, h] <;> rfl

theorem run_within : (within ds inside).run names = names.scopes.push.declare ds >>= fun scopes =>
    inside.run { names with scopes } >>= fun r => .ok ((), { r.2 with scopes := r.2.scopes.pop }) := by
  simp only [within, run_declare, StateT.run_bind, StateT.run_modify, pure_bind]
  cases names.scopes.push.declare ds <;> rfl

end Naming

def Node.bindNames : Node → Naming Unit
  | .decl d => d.bindNames
  | .type t => t.bindNames
  | .stmt t => t.bindNames
  | .expr e => e.bindNames

theorem Decl.bindNamesAll_eq : Decl.bindNamesAll ds = forM ds Decl.bindNames := by
  induction ds with
  | nil => rfl
  | cons d ds ih => rw [Decl.bindNamesAll, ih, List.forM_cons]

theorem Stmt.bindNamesAll_eq {ts : List Stmt} : Stmt.bindNamesAll ts = forM ts Stmt.bindNames := by
  induction ts with
  | nil => rfl
  | cons t ts ih => rw [Stmt.bindNamesAll, ih, List.forM_cons]

theorem Expr.bindNamesAll_eq {es : List Expr} : Expr.bindNamesAll es = forM es Expr.bindNames := by
  induction es with
  | nil => rfl
  | cons e es ih => rw [Expr.bindNamesAll, ih, List.forM_cons]

/-- In these scopes, names are bound exactly as nodes call for. The scopes are then as they were. -/
structure Checked (s : Scopes) (qs : List (Surroundings × Node)) (x : Naming Unit) : Prop where
  ok : ∀ {b names}, x.run ⟨s, b⟩ = .ok ((), names) ↔ ∃ bs, Resolves qs bs ∧ names = ⟨s, b.insertMany bs⟩
  fault : ∀ {b e}, x.run ⟨s, b⟩ = .error e → e.fault.OfNames

namespace Checked

variable {qs rs : List (Surroundings × Node)} {x y : Naming Unit}

theorem append (h : Checked s qs x) (h' : Checked s rs y) : Checked s (qs ++ rs) (do x; y) where
  ok {b names} := by
    rw [StateT.run_bind, bind_eq_ok]
    constructor
    · rintro ⟨⟨⟨⟩, _⟩, hx, hy⟩
      obtain ⟨b₁, h₁, rfl⟩ := h.ok.mp hx
      obtain ⟨b₂, h₂, rfl⟩ := h'.ok.mp hy
      exact ⟨b₁ ++ b₂, resolves_append.mpr ⟨b₁, b₂, rfl, h₁, h₂⟩, by rw [Std.TreeMap.insertMany_append]⟩
    · rintro ⟨bs, hbs, rfl⟩
      obtain ⟨b₁, b₂, rfl, h₁, h₂⟩ := resolves_append.mp hbs
      exact ⟨_, h.ok.mpr ⟨b₁, h₁, rfl⟩, h'.ok.mpr ⟨b₂, h₂, by rw [Std.TreeMap.insertMany_append]⟩⟩
  fault {b e} he := by
    rw [StateT.run_bind] at he
    rcases bind_eq_error.mp he with he | ⟨⟨⟨⟩, _⟩, hx, hy⟩
    · exact h.fault he
    · obtain ⟨b₁, -, rfl⟩ := h.ok.mp hx
      exact h'.fault hy

theorem nil : Checked s [] (pure ()) where
  ok {b names} := by
    constructor
    · rintro ⟨⟩
      exact ⟨[], .nil, by simp⟩
    · rintro ⟨_, ⟨⟩, rfl⟩
      rfl
  fault {b e} he := by cases he

theorem all {f : Surroundings × Node → Naming Unit} (h : ∀ q ∈ qs, Checked s (q.2.situated q.1) (f q)) :
    Checked s (qs.flatMap fun q => q.2.situated q.1) (forM qs f) := by
  induction qs with
  | nil => exact nil
  | cons q qs ih =>
    obtain ⟨hq, hqs⟩ := forall_mem_cons.mp h
    exact hq.append (ih hqs)

theorem single (hs : s.Mirrors q.1) (honce : q.2.DeclaresOnce) :
    Checked s [q] (forM q.2.use? fun use => Naming.use q.2.mark use.1 use.2) := by
  have hcons : ∀ bs, Resolves [q] bs ↔ Binds q bs := fun bs => by
    constructor
    · rintro (_ | ⟨hq, _ | _⟩)
      rwa [append_nil]
    · intro hq
      exact append_nil bs ▸ .cons hq .nil
  simp only [Binds, honce, true_and] at hcons
  rcases huse : q.2.use? with _ | ⟨name, category⟩
  all_goals simp only [huse] at hcons
  · refine ⟨fun {b names} => ⟨?_, ?_⟩, nil.fault⟩
    · rintro ⟨⟩
      exact ⟨[], (hcons _).mpr rfl, by rw [Std.TreeMap.insertMany_nil]⟩
    · rintro ⟨bs, hbs, rfl⟩
      obtain rfl := (hcons bs).mp hbs
      rfl
  · refine ⟨fun {b names} => ?_, fun {b e} he => ?_⟩
    · rw [Option.forM_some, Naming.run_use, bind_eq_ok]
      constructor
      · rintro ⟨d, hd, ⟨⟩⟩
        obtain ⟨hnearest, hcategory⟩ := (Scopes.lookup_eq_ok hs).mp hd
        exact ⟨_, (hcons _).mpr ⟨d, hnearest, hcategory, rfl⟩, by rw [Std.TreeMap.insertMany_list_singleton]; rfl⟩
      · rintro ⟨bs, hbs, rfl⟩
        obtain ⟨d, hnearest, hcategory, rfl⟩ := (hcons bs).mp hbs
        exact ⟨d, (Scopes.lookup_eq_ok hs).mpr ⟨hnearest, hcategory⟩,
          by rw [Std.TreeMap.insertMany_list_singleton]; rfl⟩
    · rw [Option.forM_some, Naming.run_use] at he
      rcases bind_eq_error.mp he with he | ⟨_, -, ⟨⟩⟩
      exact Scopes.ofNames_of_lookup he

end Checked

namespace Node

def opensScope : Node → Bool
  | .decl (.function ..) | .expr (.block ..) => true
  | _ => false

section
variable {n : Node} (h : n.opensScope = false)
include h

theorem bindNames_of_not_opensScope : n.bindNames = (do
    forM n.use? fun use => Naming.use n.mark use.1 use.2
    forM (n.parts true 0) fun q => q.2.bindNames) := by
  rcases n with d | t | t | e
  · cases d <;> simp [bindNames, Decl.bindNames, use?, parts, Decl.bindNamesAll_eq, opensScope] at h ⊢
  · cases t <;> simp [bindNames, TypeExpr.bindNames, use?, parts, Decl.bindNamesAll_eq, mark, TypeExpr.mark]
  · cases t <;> simp [bindNames, Stmt.bindNames, use?, parts, Stmt.bindNamesAll_eq]
  · cases e <;> simp [bindNames, Expr.bindNames, use?, parts, Expr.bindNamesAll_eq, mark, Expr.mark, opensScope] at h ⊢

theorem situatedParts_of_not_opensScope (Γ : Surroundings) :
    n.situatedParts Γ = (n.parts true 0).map fun q => (Γ, q.2) := by
  unfold situatedParts
  split
  · simp [opensScope] at h
  · simp [opensScope] at h
  · rfl

theorem declaresOnce_of_not_opensScope : n.DeclaresOnce := by
  unfold DeclaresOnce
  split
  · simp [opensScope] at h
  · simp [opensScope] at h
  · trivial

end

section
variable (hs : s.Mirrors Γ) {inside : Naming Unit} {qs : List (Surroundings × Node)}
  (hinside : ∀ inner : Scopes, inner.Mirrors (ds :: Γ) → Checked inner qs inside)
include hs hinside

theorem run_within_eq_ok {b : Bindings} {names : Names} : (Naming.within ds inside).run ⟨s, b⟩ = .ok ((), names) ↔
    (ds.map Decl.name).Nodup ∧ ∃ bs, Resolves qs bs ∧ names = ⟨s, b.insertMany bs⟩ := by
  rw [Naming.run_within, bind_eq_ok]
  constructor
  · rintro ⟨inner, hinner, h⟩
    have hmirrors := (Scopes.push_declare hs).mp hinner
    obtain ⟨⟨⟨⟩, _⟩, hrun, ⟨⟩⟩ := bind_eq_ok.mp h
    obtain ⟨bs, hbs, rfl⟩ := (hinside inner hmirrors).ok.mp hrun
    exact ⟨hmirrors.once ds mem_cons_self, bs, hbs, by rw [Scopes.pop_of_declare hinner]⟩
  · rintro ⟨hnodup, bs, hbs, rfl⟩
    have hinner : s.push.declare ds = .ok _ := Scopes.declare_eq_ok.mpr ⟨hnodup, by simp [Scopes.push], rfl⟩
    have hchecked := hinside _ ((Scopes.push_declare hs).mp hinner)
    exact ⟨_, hinner, bind_eq_ok.mpr ⟨_, hchecked.ok.mpr ⟨bs, hbs, rfl⟩, rfl⟩⟩

theorem checked_within (q : Surroundings × Node) (honce : q.2.DeclaresOnce ↔ (ds.map Decl.name).Nodup)
    (huse : q.2.use? = none) {before : Naming Unit} {rs : List (Surroundings × Node)} (hbefore : Checked s rs before) :
    Checked s (q :: (rs ++ qs)) (do before; Naming.within ds inside) where
  ok {b names} := by
    rw [StateT.run_bind, bind_eq_ok]
    constructor
    · rintro ⟨⟨⟨⟩, _⟩, hrun, hrest⟩
      obtain ⟨b₁, h₁, rfl⟩ := hbefore.ok.mp hrun
      obtain ⟨hnodup, b₂, h₂, rfl⟩ := (run_within_eq_ok hs hinside).mp hrest
      refine ⟨b₁ ++ b₂, ?_, by rw [Std.TreeMap.insertMany_append]⟩
      exact .cons (b := []) ⟨honce.mpr hnodup, by rw [huse]⟩ (resolves_append.mpr ⟨b₁, b₂, rfl, h₁, h₂⟩)
    · rintro ⟨_, _ | ⟨⟨hq, hown⟩, h⟩, rfl⟩
      rw [huse] at hown
      obtain ⟨b₁, b₂, rfl, h₁, h₂⟩ := resolves_append.mp h
      refine ⟨_, hbefore.ok.mpr ⟨b₁, h₁, rfl⟩, (run_within_eq_ok hs hinside).mpr ⟨honce.mp hq, b₂, h₂, ?_⟩⟩
      rw [hown, nil_append, Std.TreeMap.insertMany_append]
  fault {b e} he := by
    rw [StateT.run_bind, bind_eq_error] at he
    rcases he with he | ⟨⟨⟨⟩, _⟩, hrun, he⟩
    · exact hbefore.fault he
    obtain ⟨b₁, -, rfl⟩ := hbefore.ok.mp hrun
    rw [Naming.run_within, bind_eq_error] at he
    rcases he with he | ⟨inner, hinner, he⟩
    · exact Scopes.ofNames_of_declare he
    · rcases bind_eq_error.mp he with he | ⟨_, -, ⟨⟩⟩
      exact (hinside inner ((Scopes.push_declare hs).mp hinner)).fault he

end

theorem checked (Γ : Surroundings) (n : Node) (hs : s.Mirrors Γ) : Checked s (n.situated Γ) n.bindNames := by
  induction Γ, n using situated_induct generalizing s with
  | h Γ n ih =>
    have hall : ∀ (qs : List (Surroundings × Node)) {s : Scopes}, qs ⊆ n.situatedParts Γ → (∀ q ∈ qs, s.Mirrors q.1) →
        Checked s (qs.flatMap fun q => q.2.situated q.1) (forM qs fun q => q.2.bindNames) :=
      fun _ _ hsub hs => .all fun q hq => ih q (hsub hq) (hs q hq)
    rw [situated_eq]
    cases hopens : n.opensScope with
    | false =>
      have hparts := situatedParts_of_not_opensScope hopens Γ
      have hown : Checked s [(Γ, n)] _ := .single hs (declaresOnce_of_not_opensScope hopens)
      have hrest := hall _ (List.Subset.refl _) fun q hq => by
        obtain ⟨r, -, rfl⟩ := mem_map.mp (hparts ▸ hq)
        exact hs
      rw [hparts] at hrest ⊢
      rw [forM_map] at hrest
      rw [bindNames_of_not_opensScope hopens]
      exact hown.append hrest
    | true =>
      unfold opensScope at hopens
      split at hopens
      · next mark name params result body =>
        have hsignature := hall (s := s) (params.map (fun d => (Γ, .decl d)) ++ [(Γ, .type result)])
          (by simp [situatedParts]) (by simpa [or_imp, forall_and] using ⟨fun _ _ => hs, hs⟩)
        have hinside : ∀ inner : Scopes, inner.Mirrors (params :: Γ) → Checked inner _ body.bindNames := fun _ =>
          ih (params :: Γ, .expr body) (by simp [situatedParts])
        have hchecked := checked_within hs hinside (Γ, .decl (.function mark name params result body)) Iff.rfl rfl
          hsignature
        simpa [bindNames, Decl.bindNames, situatedParts, Decl.bindNamesAll_eq] using hchecked
      · next mark stmts value decls =>
        have hinside : ∀ inner : Scopes, inner.Mirrors (decls :: Γ) → Checked inner _ _ := fun inner hinner =>
          hall (s := inner) _ (List.Subset.refl _) fun q hq => by
            have hq : q.1 = decls :: Γ := by
              simp only [situatedParts, mem_append, mem_map, mem_singleton] at hq
              grind
            exact hq ▸ hinner
        have hchecked := checked_within hs hinside (Γ, .expr (.block mark stmts value decls)) Iff.rfl rfl .nil
        simpa [bindNames, Expr.bindNames, situatedParts, Decl.bindNamesAll_eq, Stmt.bindNamesAll_eq] using hchecked
      · cases hopens

end Node

namespace Resolves

variable {qs : List (Surroundings × Node)} {bs : List (NodeId × Decl)}

theorem exists_iff : (∃ bs, Resolves qs bs) ↔ ∀ q ∈ qs, ∃ b, Binds q b := by
  induction qs with
  | nil => simpa using ⟨[], .nil⟩
  | cons q qs ih =>
    rw [forall_mem_cons, ← ih]
    constructor
    · rintro ⟨_, _ | ⟨hq, hqs⟩⟩
      exact ⟨⟨_, hq⟩, _, hqs⟩
    · rintro ⟨⟨b, hq⟩, bs, hqs⟩
      exact ⟨b ++ bs, .cons hq hqs⟩

theorem keys_sublist (h : Resolves qs bs) : (bs.map Prod.fst).Sublist (qs.map fun q => q.2.id) := by
  induction h with
  | nil => exact .slnil
  | @cons q qs b bs hq _ ih =>
    rw [map_append, map_cons]
    have hkeys : (b.map Prod.fst).Sublist [q.2.id] := by
      obtain ⟨-, hq⟩ := hq
      split at hq
      · simp [hq]
      · obtain ⟨d, -, -, rfl⟩ := hq
        simp
    exact hkeys.append ih

theorem exists_node (h : Resolves qs bs) {b : NodeId × Decl} (hb : b ∈ bs) :
    ∃ q ∈ qs, q.2.use?.isSome ∧ q.2.id = b.1 := by
  induction h with
  | nil => simp at hb
  | @cons q qs c bs hq _ ih =>
    rcases mem_append.mp hb with hb | hb
    · obtain ⟨-, hq⟩ := hq
      split at hq
      · simp [hq] at hb
      · next huse =>
        obtain ⟨d, -, -, rfl⟩ := hq
        obtain rfl := mem_singleton.mp hb
        exact ⟨q, mem_cons_self, by simp [huse], rfl⟩
    · obtain ⟨r, hr, hr'⟩ := ih hb
      exact ⟨r, mem_cons_of_mem _ hr, hr'⟩

theorem exists_binding (h : Resolves qs bs) (hq : q ∈ qs) {category : Category}
    (huse : q.2.use? = some (name, category)) :
    ∃ d, (q.2.id, d) ∈ bs ∧ Nearest name q.1 d ∧ d.category = category := by
  induction h with
  | nil => simp at hq
  | @cons r qs c bs hr _ ih =>
    rcases mem_cons.mp hq with rfl | hq
    · obtain ⟨-, hr⟩ := hr
      rw [huse] at hr
      obtain ⟨d, hd, hcategory, rfl⟩ := hr
      exact ⟨d, by simp, hd, hcategory⟩
    · obtain ⟨d, hmem, hd⟩ := ih hq
      exact ⟨d, mem_append_right _ hmem, hd⟩

end Resolves

/-- Scopes in order stay in order on the way to the parts of a tree. -/
theorem Node.nodup_surroundings {n : Node} (hΓ : ∀ scope ∈ Γ, (scope.map Decl.name).Nodup)
    (honce : ∀ q ∈ n.situated Γ, q.2.DeclaresOnce) (hq : q ∈ n.situated Γ) :
    ∀ scope ∈ q.1, (scope.map Decl.name).Nodup := by
  induction Γ, n using situated_induct with
  | h Γ n ih =>
    rw [situated_eq] at hq honce
    obtain ⟨hn, hparts⟩ := forall_mem_cons.mp honce
    rcases mem_cons.mp hq with rfl | hq
    · exact hΓ
    · obtain ⟨r, hr, hq⟩ := mem_flatMap.mp hq
      refine ih r hr ?_ (fun q hq => hparts q (mem_flatMap.mpr ⟨r, hr, hq⟩)) hq
      -- the scopes of a part are those of the node, or those and the one that it opens
      have hopened : ∀ ds : List Decl, (ds.map Decl.name).Nodup →
          ∀ scope ∈ ds :: Γ, (scope.map Decl.name).Nodup := fun ds hds =>
        forall_mem_cons.mpr ⟨hds, hΓ⟩
      unfold situatedParts at hr
      split at hr <;> simp only [mem_append, mem_map, mem_cons, not_mem_nil, or_false] at hr
      · obtain ⟨d, -, rfl⟩ | rfl | rfl := hr
        · exact hΓ
        · exact hΓ
        · exact hopened _ hn
      · obtain ⟨d, -, rfl⟩ | ⟨s, -, rfl⟩ | rfl := hr <;> exact hopened _ hn
      · obtain ⟨p, -, rfl⟩ := hr
        exact hΓ

theorem Nearest.unique (hΓ : ∀ scope ∈ Γ, (scope.map Decl.name).Nodup)
    {e : Decl} (hd : Nearest name Γ d) (he : Nearest name Γ e) : d = e :=
  Option.some.inj (((Scopes.findSome?_iff hΓ).mpr hd).symm.trans ((Scopes.findSome?_iff hΓ).mpr he))

namespace Program

theorem bind_eq : p.bind = Scopes.empty.declare p.decls >>= fun s =>
    (Decl.bindNamesAll p.decls).run ⟨s, ∅⟩ >>= fun r => .ok r.2.bindings := by
  simp only [Program.bind, Naming.ofProgram, StateT.run_bind, Naming.run_declare]
  cases Scopes.empty.declare p.decls <;> rfl

theorem checked {s : Scopes} (hs : Scopes.empty.declare p.decls = .ok s) :
    Checked s p.situated (Decl.bindNamesAll p.decls) := by
  have hmirrors : s.Mirrors [p.decls] := by
    obtain ⟨hnodup, -, rfl⟩ := Scopes.declare_eq_ok.mp hs
    exact ⟨by simp [Scopes.empty], by simpa using hnodup⟩
  have hdecls : Checked s ((p.decls.map fun d => ([p.decls], Node.decl d)).flatMap fun q => q.2.situated q.1) _ :=
    .all (f := fun q => q.2.bindNames) fun q hq => by
      obtain ⟨d, -, rfl⟩ := mem_map.mp hq
      exact Node.checked [p.decls] (.decl d) hmirrors
  simpa [Program.situated, Decl.bindNamesAll_eq, flatMap_map, Node.bindNames] using hdecls

theorem bind_eq_ok_iff {b : Bindings} : p.bind = .ok b ↔
    (p.decls.map Decl.name).Nodup ∧ ∃ bs, Resolves p.situated bs ∧ b = .ofList bs := by
  rw [bind_eq, bind_eq_ok]
  constructor
  · rintro ⟨s, hs, h⟩
    obtain ⟨⟨⟨⟩, _⟩, hrun, ⟨⟩⟩ := bind_eq_ok.mp h
    obtain ⟨bs, hbs, rfl⟩ := (checked hs).ok.mp hrun
    exact ⟨(Scopes.declare_eq_ok.mp hs).1, bs, hbs, rfl⟩
  · rintro ⟨hnodup, bs, hbs, rfl⟩
    have hs : Scopes.empty.declare p.decls = .ok _ := Scopes.declare_eq_ok.mpr ⟨hnodup, by simp [Scopes.empty], rfl⟩
    exact ⟨_, hs, bind_eq_ok.mpr ⟨_, (checked hs).ok.mpr ⟨bs, hbs, rfl⟩, rfl⟩⟩

theorem ofNames_of_bind {e : SemanticError} (h : p.bind = .error e) : e.fault.OfNames := by
  rw [bind_eq, bind_eq_error] at h
  rcases h with h | ⟨s, hs, h⟩
  · exact Scopes.ofNames_of_declare h
  · rcases bind_eq_error.mp h with h | ⟨_, -, ⟨⟩⟩
    exact (checked hs).fault h

theorem exists_bind_iff : (∃ b, p.bind = .ok b) ↔ p.LexicallyScoped := by
  simp only [bind_eq_ok_iff, ← exists_and_left, @exists_comm Bindings]
  constructor
  · rintro ⟨bs, b, htop, hbs, -⟩
    have hbinds := Resolves.exists_iff.mp ⟨bs, hbs⟩
    have honce : ∀ q ∈ p.situated, q.2.DeclaresOnce := fun q hq => (hbinds q hq).choose_spec.1
    refine ⟨htop, honce, fun q hq name category huse => ?_, fun q hq name category huse d hd => ?_⟩
    · obtain ⟨d, -, hd, -⟩ := hbs.exists_binding hq huse
      exact ⟨d, hd⟩
    · obtain ⟨e, -, he, hcategory⟩ := hbs.exists_binding hq huse
      obtain ⟨top, htop', hq⟩ := mem_flatMap.mp hq
      have hscopes := Node.nodup_surroundings (by simpa using htop)
        (fun r hr => honce r (mem_flatMap.mpr ⟨top, htop', hr⟩)) hq
      exact hd.unique hscopes he ▸ hcategory
  · intro h
    obtain ⟨bs, hbs⟩ : ∃ bs, Resolves p.situated bs := Resolves.exists_iff.mpr fun q hq => by
      rcases huse : q.2.use? with _ | ⟨name, category⟩
      · exact ⟨[], h.once q hq, by rw [huse]⟩
      · obtain ⟨d, hd⟩ := h.declared q hq name category huse
        refine ⟨[(q.2.id, d)], h.once q hq, ?_⟩
        rw [huse]
        exact ⟨d, hd, h.category q hq name category huse d hd, rfl⟩
    exact ⟨bs, _, h.top, hbs, rfl⟩

theorem map_id_situated (p : Program) : (p.situated.map fun q => q.2.id) = p.levels.map fun q => q.2.id := by
  have hnodes := p.map_snd_situated.trans p.entered_walk
  simpa [Function.comp_def] using congrArg (List.map Node.id) hnodes

theorem Numbered.getElem?_ofList (hp : p.Numbered) {bs : List (NodeId × Decl)}
    (h : Resolves p.situated bs) {id : NodeId} :
    (Std.TreeMap.ofList bs : Bindings)[id]? = some d ↔ (id, d) ∈ bs := by
  have hkeys : (bs.map Prod.fst).Nodup := h.keys_sublist.nodup (p.map_id_situated ▸ hp)
  have hdistinct : bs.Pairwise fun a b => ¬ compare a.1 b.1 = .eq :=
    (pairwise_map.mp hkeys).imp fun hne heq => hne (by simpa using heq)
  have hof : ∀ {e : Decl}, (id, e) ∈ bs → (Std.TreeMap.ofList bs : Bindings)[id]? = some e := fun hmem =>
    Std.TreeMap.getElem?_ofList_of_mem (by simp) hdistinct hmem
  constructor
  · intro hsome
    have hkey : id ∈ (Std.TreeMap.ofList bs : Bindings) := by
      rw [Std.TreeMap.mem_iff_isSome_getElem?, hsome]
      rfl
    rw [Std.TreeMap.mem_ofList, contains_iff_mem, mem_map] at hkey
    obtain ⟨⟨_, e⟩, hmem, rfl⟩ := hkey
    rwa [← Option.some.inj ((hof hmem).symm.trans hsome)]
  · exact hof

/-- Binding the names of a program is lexical scoping. It succeeds exactly if no scope declares a name
twice and every use has a nearest declaration, of the category that it expects; and then the nodes with
a binding are those that use a name, each bound to the nearest declaration of the name. -/
theorem bind_is_lexical {src : String} {p : Program} (hp : (Program.parse src).1 = .ok p) :
    ((∃ b, p.bind = .ok b) ↔ p.LexicallyScoped) ∧ p.situated.map Prod.snd = entered p.walk ∧
      ∀ b, p.bind = .ok b →
        (∀ id, id ∈ b ↔ ∃ n ∈ entered p.walk, n.use?.isSome ∧ n.id = id) ∧
        ∀ q ∈ p.situated, ∀ name category, q.2.use? = some (name, category) →
          ∃ d, b[q.2.id]? = some d ∧ Nearest name q.1 d := by
  have hnumbered : p.Numbered := (Program.formed_parse hp).numbered
  refine ⟨exists_bind_iff, p.map_snd_situated, fun b hb => ?_⟩
  obtain ⟨-, bs, hbs, rfl⟩ := bind_eq_ok_iff.mp hb
  have hentry : ∀ q ∈ p.situated, ∀ name category, q.2.use? = some (name, category) →
      ∃ d, (Std.TreeMap.ofList bs : Bindings)[q.2.id]? = some d ∧ Nearest name q.1 d := by
    intro q hq name category huse
    obtain ⟨d, hmem, hd, -⟩ := hbs.exists_binding hq huse
    exact ⟨d, (hnumbered.getElem?_ofList hbs).mpr hmem, hd⟩
  refine ⟨fun id => ⟨fun hid => ?_, ?_⟩, hentry⟩
  · obtain ⟨d, hd⟩ := Option.isSome_iff_exists.mp (Std.TreeMap.mem_iff_isSome_getElem?.mp hid)
    obtain ⟨q, hq, huse, hid⟩ := hbs.exists_node ((hnumbered.getElem?_ofList hbs).mp hd)
    exact ⟨q.2, p.map_snd_situated ▸ mem_map_of_mem hq, huse, hid⟩
  · rintro ⟨n, hn, huse, rfl⟩
    obtain ⟨q, hq, rfl⟩ := mem_map.mp (p.map_snd_situated ▸ hn)
    obtain ⟨⟨name, category⟩, huse⟩ := Option.isSome_iff_exists.mp huse
    obtain ⟨d, hd, -⟩ := hentry q hq name category huse
    rw [Std.TreeMap.mem_iff_isSome_getElem?, hd]
    rfl

/-- A name that a variable, a parameter and a local variable have, used where all are visible. -/
def shadowing : String := "var x: int; fun f(x: bool): char = \x7b x; : x where var x: char; \x7d;"

theorem shadowing_bound : ∃ p b, (Program.parse shadowing).1 = .ok p ∧ p.bind = .ok b ∧
    p.LexicallyScoped ∧ (b.toList.map fun e => (e.1, e.2.id)) = [(5, 9), (7, 9)] ∧
      ∀ q ∈ p.situated, ∀ name category, q.2.use? = some (name, category) →
        ∃ d, b[q.2.id]? = some d ∧ Nearest name q.1 d := by
  have h : ((Program.parse shadowing).1.toOption.bind fun p => p.bind.toOption).map
      (fun b => b.toList.map fun e => (e.1, e.2.id)) = some [(5, 9), (7, 9)] := by
    rw [shadowing, parse_ofList]
    decide +kernel
  cases hp : (Program.parse shadowing).1 with
  | error e => simp [hp, Except.toOption] at h
  | ok p =>
    cases hb : p.bind with
    | error e => simp [hp, hb, Except.toOption] at h
    | ok b =>
      obtain ⟨hiff, -, hentry⟩ := bind_is_lexical hp
      refine ⟨p, b, rfl, hb, hiff.mp ⟨b, hb⟩, ?_, (hentry b hb).2⟩
      simpa [hp, hb, Except.toOption] using h

end Program
end MmixCompiler
