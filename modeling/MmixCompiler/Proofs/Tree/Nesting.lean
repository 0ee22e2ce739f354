import MmixCompiler.Proofs.Frame.Functions

/-! The functions that a node stands in, the innermost first. A level counts them; here they are told apart, so
that it can be said which function a declaration belongs to. -/

namespace MmixCompiler

variable {φ : List Decl} {q : List Decl × Node} {n : Node}

namespace Node

/-- The parts of a node that stands in the functions `φ`, each with the functions that it stands in. Parameters and
the body of a function stand in it, the type of its result does not. -/
def nestedParts (φ : List Decl) : Node → List (List Decl × Node)
  | .decl f =>
    f.params.map (fun d => (f :: φ, .decl d)) ++ (φ, .type f.type) :: f.body?.toList.map fun e => (f :: φ, .expr e)
  | n => (n.parts true 0).map fun q => (φ, q.2)

theorem mem_nestedParts_decl {f : Decl} :
    q ∈ (Node.decl f).nestedParts φ ↔ (∃ d ∈ f.params, q = (f :: φ, .decl d)) ∨ q = (φ, .type f.type) ∨
      ∃ e, f.body? = some e ∧ q = (f :: φ, .expr e) := by
  simp [nestedParts, eq_comm]

theorem nest_of_ne_decl (hn : ∀ d, n ≠ .decl d) (hq : q ∈ n.nestedParts φ) : q.1 = φ := by
  cases n with
  | decl d => exact absurd rfl (hn d)
  | type | stmt | expr =>
    obtain ⟨r, -, rfl⟩ := List.mem_map.mp hq
    rfl

theorem map_nestedParts (φ : List Decl) (n : Node) :
    (n.nestedParts φ).map (fun q => (q.1.length, q.2)) = n.parts true φ.length := by
  cases n with
  | decl f => cases f <;> simp [nestedParts, parts, Decl.params, Decl.type, Decl.body?]
  | type t => cases t <;> simp [nestedParts, parts]
  | stmt s => cases s <;> simp [nestedParts, parts, Function.comp_def]
  | expr e => cases e <;> simp [nestedParts, parts, Function.comp_def]

theorem mem_parts_of_nestedParts (h : q ∈ n.nestedParts φ) :
    (q.1.length, q.2) ∈ n.parts true φ.length := map_nestedParts φ n ▸ List.mem_map_of_mem h

theorem nest_of_nestedParts {r : List Decl × Node} (hq : q ∈ n.nestedParts φ)
    (hr : r ∈ n.nestedParts φ) (h : q.1.length = r.1.length) : q.1 = r.1 := by
  cases n with
  | decl f =>
    have hone : ∀ q ∈ (Node.decl f).nestedParts φ, q.1 = φ ∨ q.1 = f :: φ := fun q hq => by
      rcases mem_nestedParts_decl.mp hq with ⟨d, -, rfl⟩ | rfl | ⟨e, -, rfl⟩
      · exact .inr rfl
      · exact .inl rfl
      · exact .inr rfl
    rcases hone q hq with hq | hq <;> rcases hone r hr with hr | hr <;> simp_all
  | type | stmt | expr => rw [nest_of_ne_decl (by simp) hq, nest_of_ne_decl (by simp) hr]

/-- The nodes of a tree that stands in the functions `φ`, each with the functions that it stands in, in the order of
a walk. -/
def nests (φ : List Decl) (n : Node) : List (List Decl × Node) :=
  (φ, n) :: (n.nestedParts φ).attach.flatMap fun q =>
    have := sizeOf_parts (mem_parts_of_nestedParts q.2)
    nests q.1.1 q.1.2
termination_by sizeOf n

theorem nests_eq (φ : List Decl) (n : Node) :
    n.nests φ = (φ, n) :: (n.nestedParts φ).flatMap fun q => q.2.nests q.1 := by
  rw [nests]
  conv_rhs => rw [← List.attach_map_subtype_val (n.nestedParts φ), List.flatMap_map]

theorem mem_nests : q ∈ n.nests φ ↔ q = (φ, n) ∨ ∃ r ∈ n.nestedParts φ, q ∈ r.2.nests r.1 := by
  rw [nests_eq, List.mem_cons, List.mem_flatMap]

theorem nests_induct {P : List Decl → Node → Prop}
    (h : ∀ φ n, (∀ q ∈ n.nestedParts φ, P q.1 q.2) → P φ n) (φ : List Decl) (n : Node) : P φ n :=
  h φ n fun q hq =>
    have := sizeOf_parts (mem_parts_of_nestedParts hq)
    nests_induct h q.1 q.2
termination_by sizeOf n

/-- The level of a node is the number of functions that it stands in. -/
theorem map_nests (φ : List Decl) (n : Node) : (n.nests φ).map (fun q => (q.1.length, q.2)) = n.levels φ.length := by
  induction φ, n using nests_induct with
  | h φ n ih =>
    rw [nests_eq, levels_eq, List.map_cons, List.map_flatMap, ← map_nestedParts, List.flatMap_map]
    exact congrArg ((φ.length, n) :: ·) (List.flatMap_congr fun q hq => ih q hq)

end Node

namespace Program

/-- The nodes of a program, each with the functions that it stands in, the innermost first. -/
def nests (p : Program) : List (List Decl × Node) := p.decls.flatMap fun d => (Node.decl d).nests []

variable {p : Program}

theorem map_nests (p : Program) : p.nests.map (fun q => (q.1.length, q.2)) = p.levels := by
  rw [nests, levels, List.map_flatMap]
  exact List.flatMap_congr fun d _ => Node.map_nests [] (.decl d)

theorem mem_levels_of_nests (h : q ∈ p.nests) : (q.1.length, q.2) ∈ p.levels := p.map_nests ▸ List.mem_map_of_mem h

theorem mem_nests_decl {d : Decl} (h : d ∈ p.decls) : ([], .decl d) ∈ p.nests :=
  List.mem_flatMap.mpr ⟨d, h, Node.mem_nests.mpr (.inl rfl)⟩

theorem Numbered.nest_eq (hp : p.Numbered) {ψ : List Decl} (hφ : (φ, n) ∈ p.nests) (hψ : (ψ, n) ∈ p.nests) : φ = ψ := by
  have hnodup : (p.nests.map fun q => q.2.id).Nodup := by
    unfold Numbered at hp
    rw [← p.map_nests, List.map_map] at hp
    exact hp
  exact congrArg Prod.fst (List.inj_on_of_nodup_map hnodup hφ hψ rfl)

theorem nestedParts_subset (h : (φ, n) ∈ p.nests) : n.nestedParts φ ⊆ p.nests := by
  have hsubset : ∀ ψ m, (φ, n) ∈ Node.nests ψ m → n.nestedParts φ ⊆ m.nests ψ := fun ψ m => by
    induction ψ, m using Node.nests_induct with
    | h ψ m ih =>
      intro hn q hq
      rcases Node.mem_nests.mp hn with heq | ⟨r, hr, hn⟩
      · cases heq
        exact Node.mem_nests.mpr (.inr ⟨q, hq, Node.mem_nests.mpr (.inl rfl)⟩)
      · exact Node.mem_nests.mpr (.inr ⟨r, hr, ih r hr hn hq⟩)
  obtain ⟨d, hd, h⟩ := List.mem_flatMap.mp h
  exact fun q hq => List.mem_flatMap.mpr ⟨d, hd, hsubset [] (.decl d) h hq⟩

theorem nests_induct {P : List Decl → Node → Prop} (htop : ∀ d ∈ p.decls, P [] (.decl d))
    (hpart : ∀ φ n, (φ, n) ∈ p.nests → P φ n → ∀ q ∈ n.nestedParts φ, P q.1 q.2) (h : (φ, n) ∈ p.nests) : P φ n := by
  have hbelow : ∀ φ n, (φ, n) ∈ p.nests → P φ n → ∀ q ∈ n.nests φ, P q.1 q.2 := fun φ n => by
    induction φ, n using Node.nests_induct with
    | h φ n ih =>
      intro hn h q hq
      rcases Node.mem_nests.mp hq with rfl | ⟨r, hr, hq⟩
      · exact h
      · exact ih r hr (nestedParts_subset hn hr) (hpart φ n hn h r hr) q hq
  obtain ⟨d, hd, hq⟩ := List.mem_flatMap.mp h
  exact hbelow [] (.decl d) (mem_nests_decl hd) (htop d hd) _ hq

theorem mem_nests_head {f : Decl} (h : (f :: φ, n) ∈ p.nests) : (φ, .decl f) ∈ p.nests ∧ f.isFunction := by
  refine nests_induct (P := fun ψ _ => ∀ f φ, ψ = f :: φ → (φ, .decl f) ∈ p.nests ∧ f.isFunction)
    (fun d hd => by simp) ?_ h f φ rfl
  intro ψ m hm ih q hq f φ heq
  cases m with
  | type | stmt | expr => exact ih f φ (Node.nest_of_ne_decl (by simp) hq ▸ heq)
  | decl g =>
    have hfunction : ∀ {q}, q = g :: ψ → g.isFunction → q = f :: φ → (φ, .decl f) ∈ p.nests ∧ f.isFunction := by
      rintro _ rfl hg heq
      cases heq
      exact ⟨hm, hg⟩
    rcases Node.mem_nestedParts_decl.mp hq with ⟨d, hd, rfl⟩ | rfl | ⟨e, he, rfl⟩
    · exact hfunction rfl (Decl.isFunction_of_params hd) heq
    · exact ih f φ heq
    · exact hfunction rfl (Decl.isFunction_of_body he) heq

end Program
end MmixCompiler
