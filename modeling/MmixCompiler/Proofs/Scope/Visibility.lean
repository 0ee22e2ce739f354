import MmixCompiler.Proofs.Scope.Lexical
import MmixCompiler.Proofs.Types.Tables

/-! What a name can be bound to: a declaration of the program, on no deeper level than the use, and of a
sort that the use can be of. -/

namespace MmixCompiler

open List

variable {d : Decl} {Γ : Surroundings} {k : Nat} {q : Nat × Node} {n : Node} {Q : Nat × Node → Prop}

/-- A declaration that names can be bound to. -/
def Decl.Visible (d : Decl) : Prop := d.Declared ∨ d.HasRole .parameter

theorem Decl.Visible.isStorage (h : d.Visible) (hcategory : d.category = .variable) : d.isStorage := by
  cases d with
  | typed mark role name type =>
    obtain (rfl | rfl) | rfl : (role = .variable ∨ role = .type) ∨ role = .parameter := h
    · rfl
    · cases hcategory
    · rfl
  | proto | function => cases hcategory

theorem Decl.isType_of_category (h : d.category = .type) : d.isType := by
  cases d with
  | typed mark role name type => cases role <;> first | rfl | cases h
  | proto | function => cases h

theorem Nearest.mem {name : String} (h : Nearest name Γ d) : d.name = name ∧ ∃ scope ∈ Γ, d ∈ scope := by
  induction h with
  | here hd hname => exact ⟨hname, _, mem_cons_self, hd⟩
  | outside _ _ ih =>
    obtain ⟨hname, scope, hscope, hd⟩ := ih
    exact ⟨hname, scope, mem_cons_of_mem _ hscope, hd⟩

namespace Node

variable {Γ : Surroundings} {n : Node}

theorem situated_subset {q : Surroundings × Node} (h : q ∈ n.situated Γ) : q.2.situated q.1 ⊆ n.situated Γ := by
  induction Γ, n using situated_induct with
  | h Γ n ih =>
    rw [situated_eq] at h
    rcases mem_cons.mp h with rfl | h
    · exact List.Subset.refl _
    · obtain ⟨r, hr, hq⟩ := mem_flatMap.mp h
      intro m hm
      rw [situated_eq]
      exact mem_cons_of_mem _ (mem_flatMap.mpr ⟨r, hr, ih r hr hq hm⟩)

theorem le_of_parts (hq : q ∈ n.parts true k) : k ≤ q.1 := by
  cases n with
  | decl d => cases d <;> simp [parts] at hq <;> grind
  | type t => cases t <;> simp [parts] at hq <;> grind
  | stmt s => cases s <;> simp [parts] at hq <;> grind
  | expr e => cases e <;> simp [parts] at hq <;> grind

theorem exists_situatedPart (Γ : Surroundings) (hn : n.Formed) (hq : q ∈ n.parts true k) :
    ∃ Γ', (Γ', q.2) ∈ n.situatedParts Γ ∧ (Γ' = Γ ∨ ∃ ds, Γ' = ds :: Γ ∧
      ∀ d ∈ ds, d.Visible ∧ (q.1, .decl d) ∈ n.parts true k) := by
  cases hopens : n.opensScope with
  | false =>
    have hmem : q.2 ∈ (n.situatedParts Γ).map Prod.snd := map_snd_situatedParts Γ k n ▸ mem_map_of_mem hq
    rw [situatedParts_of_not_opensScope hopens] at hmem ⊢
    obtain ⟨r, hr, heq⟩ := mem_map.mp hmem
    obtain ⟨m, -, rfl⟩ := mem_map.mp hr
    exact ⟨Γ, heq ▸ hr, .inl rfl⟩
  | true =>
    unfold opensScope at hopens
    split at hopens
    · next mark name params result body =>
      have hroles : ∀ d ∈ params, d.HasRole .parameter := hn.2
      simp only [parts, mem_append, mem_map, mem_cons, not_mem_nil, or_false, if_true] at hq
      obtain ⟨d, hd, rfl⟩ | rfl | rfl := hq
      · exact ⟨Γ, by simpa [situatedParts] using hd, .inl rfl⟩
      · exact ⟨Γ, by simp [situatedParts], .inl rfl⟩
      · exact ⟨params :: Γ, by simp [situatedParts], .inr ⟨params, rfl, fun d hd =>
          ⟨.inr (hroles d hd), by simpa [parts] using hd⟩⟩⟩
    · next mark stmts value decls =>
      have hdeclared : ∀ d ∈ decls, d.Declared := hn
      have hscope : ∀ d ∈ decls, d.Visible ∧
          (k, .decl d) ∈ (Node.expr (.block mark stmts value decls)).parts true k := fun d hd =>
        ⟨.inl (hdeclared d hd), by simpa [parts] using hd⟩
      simp only [parts, mem_append, mem_map, mem_cons, not_mem_nil, or_false] at hq
      refine ⟨decls :: Γ, ?_, .inr ⟨decls, rfl, ?_⟩⟩
      · obtain ⟨d, hd, rfl⟩ | ⟨s, hs, rfl⟩ | rfl := hq
        · simpa [situatedParts] using hd
        · simpa [situatedParts] using hs
        · simp [situatedParts]
      · obtain ⟨d, -, rfl⟩ | ⟨s, -, rfl⟩ | rfl := hq <;> exact hscope
    · cases hopens

end Node

namespace Program

variable {p : Program} {b : Bindings}

theorem situatedParts_subset (h : (Γ, n) ∈ p.situated) : n.situatedParts Γ ⊆ p.situated := by
  obtain ⟨d, hd, h⟩ := mem_flatMap.mp h
  intro q hq
  refine mem_flatMap.mpr ⟨d, hd, Node.situated_subset h ?_⟩
  rw [Node.situated_eq]
  refine mem_cons_of_mem _ (mem_flatMap.mpr ⟨q, hq, ?_⟩)
  rw [Node.situated_eq]
  exact mem_cons_self

/-- A set of declarations of the program, with their levels, that is large enough for the scopes around
a node on level `k`. -/
def Scoped (Q : Nat × Node → Prop) (k : Nat) (Γ : Surroundings) : Prop :=
  ∀ scope ∈ Γ, ∀ d ∈ scope, d.Visible ∧ ∃ j ≤ k, Q (j, .decl d)

theorem Scoped.mono {j : Nat} (h : Scoped Q j Γ) (hle : j ≤ k) : Scoped Q k Γ := by
  intro scope hscope d hd
  obtain ⟨hvisible, i, hi, hq⟩ := h scope hscope d hd
  exact ⟨hvisible, i, Nat.le_trans hi hle, hq⟩

theorem Scoped.part (h : Scoped Q k Γ) (hn : n.Formed) (hmem : (Γ, n) ∈ p.situated) (hq : q ∈ n.parts true k)
    (hQ : ∀ d, (q.1, .decl d) ∈ n.parts true k → Q (q.1, .decl d)) :
    ∃ Γ', (Γ', q.2) ∈ p.situated ∧ Scoped Q q.1 Γ' := by
  obtain ⟨Γ', hpart, hscopes⟩ := Node.exists_situatedPart Γ hn hq
  refine ⟨Γ', situatedParts_subset hmem hpart, ?_⟩
  rcases hscopes with rfl | ⟨ds, rfl, hds⟩
  · exact h.mono (Node.le_of_parts hq)
  · refine forall_mem_cons.mpr ⟨fun d hd => ?_, h.mono (Node.le_of_parts hq)⟩
    obtain ⟨hvisible, hd⟩ := hds d hd
    exact ⟨hvisible, q.1, Nat.le_refl _, hQ d hd⟩

theorem Formed.scoped_top (hp : p.Formed) (hQ : ∀ d ∈ p.decls, Q (0, .decl d)) : Scoped Q 0 [p.decls] := by
  intro scope hscope d hd
  obtain rfl := mem_singleton.mp hscope
  exact ⟨.inl (hp.declared d hd), 0, Nat.le_refl _, hQ d hd⟩

theorem mem_situated_top (hd : d ∈ p.decls) : ([p.decls], .decl d) ∈ p.situated := by
  refine mem_flatMap.mpr ⟨d, hd, ?_⟩
  rw [Node.situated_eq]
  exact mem_cons_self

theorem Formed.exists_scoped (hp : p.Formed) (hq : q ∈ p.levels) :
    ∃ Γ, (Γ, q.2) ∈ p.situated ∧ Scoped (· ∈ p.levels) q.1 Γ := by
  refine levels_induct (P := fun k n => ∃ Γ, (Γ, n) ∈ p.situated ∧ Scoped (· ∈ p.levels) k Γ)
    (fun d hd => ⟨_, mem_situated_top hd, hp.scoped_top fun d hd => mem_levels_decl hd⟩) ?_ hq
  rintro k n hn ⟨Γ, hmem, hscoped⟩ r hr
  exact hscoped.part (hp.formed _ hn) hmem hr fun d hd => parts_subset hn hd

theorem InCode.exists_scoped (hp : p.Formed) (hq : p.InCode q) :
    ∃ Γ, (Γ, q.2) ∈ p.situated ∧ Scoped p.InCode q.1 Γ := by
  obtain ⟨d, hd, hpath⟩ := hq
  induction hpath with
  | refl => exact ⟨_, mem_situated_top hd, hp.scoped_top fun d hd => ⟨d, hd, .refl⟩⟩
  | @tail n r hpath hr ih =>
    obtain ⟨Γ, hmem, hscoped⟩ := ih
    have hn : p.InCode n := ⟨d, hd, hpath⟩
    exact hscoped.part (hp.formed _ hn.mem_levels) hmem hr.1 fun d hd => hn.part hd rfl

theorem exists_binding (hp : p.Formed) (hb : p.bind = .ok b) (hn : ∃ Γ, (Γ, n) ∈ p.situated ∧ Scoped Q k Γ)
    {name : String} {category : Category} (huse : n.use? = some (name, category)) :
    ∃ d, b[n.id]? = some d ∧ d.name = name ∧ d.category = category ∧ d.Visible ∧ ∃ j ≤ k, Q (j, .decl d) := by
  obtain ⟨-, bs, hbs, rfl⟩ := bind_eq_ok_iff.mp hb
  obtain ⟨Γ, hmem, hscoped⟩ := hn
  obtain ⟨d, hd, hnearest, hcategory⟩ := hbs.exists_binding hmem huse
  obtain ⟨hname, scope, hscope, hscoped'⟩ := hnearest.mem
  exact ⟨d, (hp.numbered.getElem?_ofList hbs).mpr hd, hname, hcategory, hscoped scope hscope d hscoped'⟩

/-- Uses are bound to declarations of the program and of their category. -/
def BindsUses (p : Program) (b : Bindings) : Prop :=
  ∀ n, p.Has n → ∀ name category, n.use? = some (name, category) → ∀ d, b[n.id]? = some d →
    p.Has (.decl d) ∧ d.category = category

theorem Formed.bindsUses (hp : p.Formed) (hb : p.bind = .ok b) : p.BindsUses b := by
  rintro n ⟨k, hk⟩ name category huse d hd
  obtain ⟨e, he, -, hcategory, -, j, -, hmem⟩ := exists_binding hp hb (hp.exists_scoped hk) huse
  obtain rfl : e = d := Option.some.inj (he.symm.trans hd)
  exact ⟨⟨j, hmem⟩, hcategory⟩

theorem BindsUses.type (h : p.BindsUses b) {mark : Mark} {name : String} {d : Decl}
    (ht : p.Has (.type (.named mark name))) (hd : b[mark.id]? = some d) : p.Has (.decl d) ∧ d.isType :=
  (h _ ht name .type rfl d hd).imp_right Decl.isType_of_category

end Program
end MmixCompiler
