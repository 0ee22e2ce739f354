import Mathlib.Logic.Function.Iterate
import MmixCompiler.Proofs.Chunk

/-! Static links lead to the right frame. A name is bound to a declaration in one of the functions that it stands
in, and a frame is as deep as its function is nested; so following as many links as there are functions between the
two leads from the frame of the one to the frame of the other. -/

namespace MmixCompiler

variable {φ : List Decl} {n : Node}

namespace Program

variable {p : Program}

/-- The node stands in the outermost `q.1` of the functions `φ`. -/
def Around (p : Program) (φ : List Decl) (q : Nat × Node) : Prop := (φ.drop (φ.length - q.1), q.2) ∈ p.nests

theorem around_cons {f : Decl} {q : Nat × Node} (h : q.1 ≤ φ.length) : p.Around (f :: φ) q ↔ p.Around φ q := by
  rw [Around, Around, List.length_cons, Nat.succ_sub h, List.drop_succ_cons]

theorem Scoped.around_part {Γ : Surroundings} (h : Scoped (p.Around φ) φ.length Γ) {q : List Decl × Node}
    (hq : q ∈ n.nestedParts φ) : Scoped (p.Around q.1) φ.length Γ := by
  cases n with
  | decl f =>
    have hcons : Scoped (p.Around (f :: φ)) φ.length Γ := fun scope hscope d hd => by
      obtain ⟨hvisible, j, hj, hd⟩ := h scope hscope d hd
      exact ⟨hvisible, j, hj, (around_cons hj).mpr hd⟩
    rcases Node.mem_nestedParts_decl.mp hq with ⟨d, -, rfl⟩ | rfl | ⟨e, -, rfl⟩
    · exact hcons
    · exact h
    · exact hcons
  | type | stmt | expr =>
    rw [Node.nest_of_ne_decl (by simp) hq]
    exact h

/-- The scopes around a node declare what stands in some of the functions around it. -/
theorem Formed.exists_around (hp : p.Formed) (h : (φ, n) ∈ p.nests) :
    ∃ Γ, (Γ, n) ∈ p.situated ∧ Scoped (p.Around φ) φ.length Γ := by
  refine nests_induct (P := fun φ n => ∃ Γ, (Γ, n) ∈ p.situated ∧ Scoped (p.Around φ) φ.length Γ)
    (fun d hd => ⟨_, mem_situated_top hd, hp.scoped_top fun d hd => mem_nests_decl hd⟩) ?_ h
  rintro φ n hn ⟨Γ, hmem, hscoped⟩ q hq
  refine (hscoped.around_part hq).part (hp.formed _ (mem_levels_of_nests hn)) hmem
    (Node.mem_parts_of_nestedParts hq) fun d hd => ?_
  -- what else is on the level of the part stands in the same functions
  rw [← Node.map_nestedParts] at hd
  obtain ⟨r, hr, heq⟩ := List.mem_map.mp hd
  obtain ⟨hlength, hnode⟩ := Prod.mk.inj heq
  rw [Around, Nat.sub_self, List.drop_zero, ← Node.nest_of_nestedParts hr hq hlength, ← hnode]
  exact nestedParts_subset hn hr

end Program

theorem Frame.link_eq (f : Frame) (n : Nat) : f.link n = Ir.Expr.mem^[n] (.temp f.fp) := by
  induction n with
  | zero => rfl
  | succ n ih => rw [Frame.link, ih, Function.iterate_succ_apply']

namespace Program.Made

variable {p : Program} {a : Analysis} {l : Layout} {c : Code} {s : Supply} (h : p.Made a l c s)
include h

theorem inCode_of_nests (hn : (φ, n) ∈ p.nests) (hinert : ¬n.Inert) : p.InCode (φ.length, n) := by
  obtain ⟨_, _, hs, -⟩ := h.analyzed.typings.resolved
  exact (Program.inCode_or_inert h.analyzed.formed hs (mem_levels_of_nests hn)).resolve_right hinert

theorem exists_frame {d : Decl} (hd : (φ, .decl d) ∈ p.nests) (hfunction : d.isFunction) :
    ∃ f, l.frames[d.id]? = some f ∧ f.depth = φ.length + 1 := by
  have hcode : p.InCode (φ.length, .decl d) := h.inCode_of_nests hd fun hinert => by
    cases d with
    | typed => cases hfunction
    | proto | function => exact hinert
  obtain ⟨f, hf, hsuits⟩ := h.laidOut.frames _ d hcode hfunction
  exact ⟨f, hf, hsuits.depth⟩

/-- The code of a node is that for the innermost function that it stands in. -/
theorem inert_or_covered (hn : (φ, n) ∈ p.nests) :
    n.Inert ∨ ∃ f, (∀ d ∈ φ.head?, l.frames[d.id]? = some f) ∧ n.Covered a l c s.labels f := by
  have hp := h.analyzed.formed
  obtain ⟨_, _, hs, -⟩ := h.analyzed.typings.resolved
  refine nests_induct (P := fun φ n => n.Inert ∨ ∃ f, (∀ d ∈ φ.head?, l.frames[d.id]? = some f) ∧
    n.Covered a l c s.labels f) (fun d hd => ?_) ?_ hn
  · exact .inr ⟨⟨.fresh 0, 0, 0, 0, 0, 0⟩, by simp, (h.coded _).covered_decl d hd⟩
  intro φ n hn ih q hq
  rcases ih with hinert | ⟨f, hf, hcovered⟩
  · exact .inl (hinert.part hp hs ⟨_, mem_levels_of_nests hn⟩ (Node.mem_parts_of_nestedParts hq))
  cases n with
  | type t => exact .inl (Node.Inert.part hp hs ⟨_, mem_levels_of_nests hn⟩ trivial (Node.mem_parts_of_nestedParts hq))
  | stmt | expr =>
    rw [Node.nest_of_ne_decl (by simp) hq]
    exact .inr ⟨f, hf, hcovered.part (by simp) rfl (Node.mem_parts_of_nestedParts hq)⟩
  | decl d =>
    rcases Node.mem_nestedParts_decl.mp hq with ⟨v, hv, rfl⟩ | rfl | ⟨e, he, rfl⟩
    · obtain ⟨g, hg, -⟩ := h.exists_frame hn (Decl.isFunction_of_params hv)
      exact .inr ⟨g, by simpa using hg, (hp.role_of_params ⟨_, mem_levels_of_nests hn⟩ hv).covered⟩
    · exact .inl trivial
    · cases d with
      | typed | proto => cases he
      | function =>
        cases he
        obtain ⟨g, code, hg, -, -, -, hbody⟩ := hcovered
        exact .inr ⟨g, fun d hd => Option.some.inj hd ▸ hg, code, .inl hbody⟩

/-- What a use of a name in a function is bound to stands in one of the functions around the use. -/
theorem exists_binding {e : Expr} (he : (φ, .expr e) ∈ p.nests) {name : String} {category : Category}
    (huse : (Node.expr e).use? = some (name, category)) :
    ∃ d n, a.bindings[e.id]? = some d ∧ d.category = category ∧ d.Visible ∧ n ≤ φ.length ∧
      (φ.drop n, .decl d) ∈ p.nests ∧ p.InCode (φ.length - n, .decl d) := by
  obtain ⟨d, hd, -, hcategory, hvisible, j, hj, hnest⟩ := Program.exists_binding h.analyzed.formed h.analyzed.bound
    (h.analyzed.formed.exists_around he) huse
  have hcode := h.inCode_of_nests hnest fun hinert => by
    cases d with
    | typed mark role name type =>
      obtain rfl : role = .component := hinert
      rcases hvisible with (hrole | hrole) | hrole <;> cases hrole
    | proto | function => exact hinert
  rw [List.length_drop] at hcode
  exact ⟨d, _, hd, hcategory, hvisible, Nat.sub_le _ _, hnest, hcode⟩

end Program.Made

section
variable {a : Analysis} {l : Layout} {c : Code} {bound : Nat} {f : Frame} {mark : Mark} {name : String}

theorem Node.Covered.address_noted (h : (Node.expr (.name mark name)).Covered a l c bound f) :
    ∃ d x address, a.bindings[mark.id]? = some d ∧ l.accesses[d.id]? = some x ∧
      x.address f d.name mark.position = .ok address ∧ c.addresses[mark.id]? = some address := by
  have haddress : ∃ address, Coded a l c bound f (.address (.name mark name) address) := by
    obtain ⟨code, hcoded | hcoded⟩ := h
    · cases hcoded with
      | load hcoded => exact ⟨_, hcoded⟩
    · exact ⟨code, hcoded⟩
  obtain ⟨address, hcoded⟩ := haddress
  cases hcoded with
  | name hd hx haddress hnoted => exact ⟨_, _, _, hd, hx, haddress, hnoted.1⟩

theorem Node.Covered.call_noted {args : List Expr} (h : (Node.expr (.call mark name args)).Covered a l c bound f) :
    ∃ d callee link cs, a.bindings[mark.id]? = some d ∧ l.frames[d.id]? = some callee ∧
      f.linkTo callee = .ok link ∧ c.exprs[mark.id]? = some (.call callee.label (link :: cs)) := by
  obtain ⟨code, hcoded | hcoded⟩ := h
  · cases hcoded with
    | call hd hcallee hlink _ hnoted => exact ⟨_, _, _, _, hd, hcallee, hlink, hnoted.2⟩
    | load hcoded => cases hcoded
  · cases hcoded

end

/-- Static links lead from the frame of a function to those of the functions around it. -/
structure Program.Linked (p : Program) (a : Analysis) (l : Layout) (c : Code) : Prop where
  /-- A node stands in one list of functions only. -/
  nest : ∀ φ ψ n, (φ, n) ∈ p.nests → (ψ, n) ∈ p.nests → φ = ψ
  /-- A frame is one deeper than the number of functions around its own. -/
  depth : ∀ φ d, (φ, .decl d) ∈ p.nests → d.isFunction → ∃ g, l.frames[d.id]? = some g ∧ g.depth = φ.length + 1
  /-- A name in a function `f` is bound to a declaration in the function `n` steps around `f`, or at the top. From the
  frame of `f` it takes `n` links to the frame that has the variable. -/
  name : ∀ f φ mark name, (f :: φ, .expr (.name mark name)) ∈ p.nests →
    ∃ g d n, l.frames[f.id]? = some g ∧ a.bindings[mark.id]? = some d ∧ n ≤ φ.length + 1 ∧
      ((f :: φ).drop n, .decl d) ∈ p.nests ∧ (n ≤ φ.length → ∃ offset depth size,
        l.accesses[d.id]? = some (.relative offset depth size) ∧ g.depth = depth + n ∧
        c.addresses[mark.id]? = some (.binop .add (Ir.Expr.mem^[n] (.temp g.fp)) (.const offset)))
  /-- A call in a function `f` is one of a function that is declared in the function `n` steps around `f`, or at the
  top. From the frame of `f` it takes `n` links to the frame around the callee. -/
  call : ∀ f φ mark name args, (f :: φ, .expr (.call mark name args)) ∈ p.nests →
    ∃ g d n callee link cs, l.frames[f.id]? = some g ∧ a.bindings[mark.id]? = some d ∧ n ≤ φ.length + 1 ∧
      ((f :: φ).drop n, .decl d) ∈ p.nests ∧ l.frames[d.id]? = some callee ∧ g.depth + 1 = callee.depth + n ∧
      c.exprs[mark.id]? = some (.call callee.label (link :: cs)) ∧
      (n ≤ φ.length → link = Ir.Expr.mem^[n] (.temp g.fp)) ∧ (link = .const 0 ↔ n = φ.length + 1)

namespace Program.Made

variable {p : Program} {a : Analysis} {l : Layout} {c : Code} {s : Supply} (h : p.Made a l c s)
include h

theorem exists_covered {f : Decl} {e : Expr} (he : (f :: φ, .expr e) ∈ p.nests) (huse : (Node.expr e).use?.isSome) :
    ∃ g, l.frames[f.id]? = some g ∧ g.depth = φ.length + 1 ∧ (Node.expr e).Covered a l c s.labels g := by
  have hinert : ¬(Node.expr e).Inert := by
    rintro ⟨n, hn⟩
    cases e with
    | name | call => cases hn
    | _ => cases huse
  obtain ⟨g, hg, hcovered⟩ := (h.inert_or_covered he).resolve_left hinert
  have hg := hg f rfl
  obtain ⟨hf, hfunction⟩ := mem_nests_head he
  obtain ⟨g', hg', hdepth⟩ := h.exists_frame hf hfunction
  obtain rfl : g = g' := Option.some.inj (hg.symm.trans hg')
  exact ⟨g, hg, hdepth, hcovered⟩

theorem linked : p.Linked a l c where
  nest _ _ _ := h.analyzed.formed.numbered.nest_eq
  depth _ _ hd hfunction := h.exists_frame hd hfunction
  name f φ mark name he := by
    obtain ⟨g, hg, hdepth, hcovered⟩ := h.exists_covered he rfl
    obtain ⟨d, n, hd, hcategory, hvisible, hn, hnest, hcode⟩ := h.exists_binding he rfl
    refine ⟨g, d, n, hg, hd, hn, hnest, fun hn' => ?_⟩
    obtain ⟨x, hx, hsuits⟩ := h.laidOut.accesses _ d hcode (hvisible.isStorage hcategory)
    obtain ⟨d', x', address, hd', hx', haddress, hnoted⟩ := hcovered.address_noted
    obtain rfl : d = d' := Option.some.inj (hd.symm.trans hd')
    obtain rfl : x = x' := Option.some.inj (hx.symm.trans hx')
    rw [List.length_cons] at hsuits
    cases x with
    | absolute => exact absurd hsuits.1 (by omega)
    | relative offset depth size =>
      obtain rfl : depth = φ.length + 1 - n := hsuits.1
      have hle : φ.length + 1 - n ≤ g.depth := by omega
      rw [Access.address, if_pos hle] at haddress
      cases haddress
      refine ⟨offset, _, size, hx, by omega, ?_⟩
      rw [hnoted, g.link_eq, show g.depth - (φ.length + 1 - n) = n by omega]
  call f φ mark name args he := by
    obtain ⟨g, hg, hdepth, hcovered⟩ := h.exists_covered he rfl
    obtain ⟨d, n, hd, hcategory, -, hn, hnest, -⟩ := h.exists_binding he rfl
    obtain ⟨callee, hcallee, hcalleeDepth⟩ := h.exists_frame hnest (Decl.isFunction_of_category hcategory)
    obtain ⟨d', callee', link, cs, hd', hcallee', hlink, hnoted⟩ := hcovered.call_noted
    obtain rfl : d = d' := Option.some.inj (hd.symm.trans hd')
    obtain rfl : callee = callee' := Option.some.inj (hcallee.symm.trans hcallee')
    rw [List.length_drop, List.length_cons] at hcalleeDepth
    rw [List.length_cons] at hn
    refine ⟨g, d, n, callee, link, cs, hg, hd, hn, hnest, hcallee, by omega, hnoted, ?_⟩
    unfold Frame.linkTo at hlink
    split at hlink
    · cases hlink
      exact ⟨fun hn' => by omega, iff_of_true rfl (by omega)⟩
    · have hle : callee.depth ≤ g.depth + 1 := by omega
      rw [if_pos hle] at hlink
      cases hlink
      rw [show g.depth + 1 - callee.depth = n by omega]
      refine ⟨fun _ => g.link_eq n, iff_of_false (fun hconst => ?_) (by omega)⟩
      cases n <;> cases hconst

end Program.Made

/-- Static links lead to the right frame: code is made for every program that has passed analysis and is laid out,
and its static links are those between the functions of the program. -/
theorem Program.static_links_lead {src : String} {p : Program} {a : Analysis} {planner : Planner}
    (hparse : (Program.parse src).1 = .ok p) (hanalyze : p.analyze = .ok a)
    (hlayout : p.layout a {} = (.ok (), planner)) :
    ∃ g, p.code a planner.layout planner.supply = (.ok (), g) ∧ p.Linked a planner.layout g.code := by
  have ha := (Program.formed_parse hparse).analyzed hanalyze
  have hl : p.LaidOut planner.layout planner.supply := (ha.meets_plan.of_gives hlayout).1
  obtain ⟨_, g, hg, htemps, hcoded⟩ := (ha.meets_code hl).exists_gives
  have hmade : p.Made a planner.layout g.code g.supply := ⟨ha, hl.mono (Nat.le_of_eq htemps.symm), hcoded⟩
  exact ⟨g, hg, hmade.linked⟩

/-- How many links an address follows. -/
def Ir.Expr.hops : Ir.Expr → Nat
  | .mem address => address.hops + 1
  | .binop _ base _ => base.hops
  | _ => 0

def deepFunctions : String :=
  "fun main(): int = \x7b x = 1; : outer(x) where var x: int; fun outer(n: int): int = \x7b inner(n); : n where " ++
    "fun inner(m: int): int = outer(m + n + x); \x7d; \x7d;"

/-- The innermost of three functions uses its own parameter, that of the function around it, and a variable of the
outermost. -/
theorem deepFunctions_linked : ∃ p a planner g, (Program.parse deepFunctions).1 = .ok p ∧ p.analyze = .ok a ∧
    p.layout a {} = (.ok (), planner) ∧ p.code a planner.layout planner.supply = (.ok (), g) ∧
    p.Linked a planner.layout g.code ∧ planner.layout.frames.values.map Frame.depth = [3, 2, 1] ∧
    g.code.addresses.values.map Ir.Expr.hops = [0, 0, 0, 0, 0, 1, 2] := by
  have h : ((Program.parse deepFunctions).1.toOption.bind fun p => p.analyze.toOption.bind fun a =>
      (p.layout a {}).1.toOption.map fun _ =>
        let planner := (p.layout a {}).2
        let g := (p.code a planner.layout planner.supply).2
        (planner.layout.frames.values.map Frame.depth, g.code.addresses.values.map Ir.Expr.hops)) =
      some ([3, 2, 1], [0, 0, 0, 0, 0, 1, 2]) := by
    unfold deepFunctions
    rw [← String.ofList_append, Program.parse_ofList]
    decide +kernel
  simp only [Option.bind_eq_some_iff, Option.map_eq_some_iff, toOption_eq_some] at h
  obtain ⟨p, hp, a, ha, _, hl, heq⟩ := h
  have hlayout : p.layout a {} = (.ok (), (p.layout a {}).2) := Prod.ext hl rfl
  obtain ⟨g, hg, hlinked⟩ := Program.static_links_lead hp ha hlayout
  rw [hg] at heq
  obtain ⟨hdepths, hhops⟩ := Prod.mk.inj heq
  exact ⟨p, a, _, g, hp, ha, hlayout, hg, hlinked, hdepths, hhops⟩

end MmixCompiler
