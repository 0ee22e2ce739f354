import MmixCompiler.Frame.Layout
import MmixCompiler.Proofs.Types.Storage

/-! The functions of a program and what belongs to each: its parameters, and the nodes of its body outside of
the bodies of other functions. Every node of the program's code that is not at the top belongs to a function on
the level below its own. -/

namespace MmixCompiler

open List

variable {depth k : Nat} {d : Decl} {n : Node} {b : Bool} {q : Nat × Node}

theorem Decl.functionsAll_eq {ds : List Decl} : Decl.functionsAll depth ds = ds.flatMap (Decl.functions depth) := by
  induction ds with
  | nil => rfl
  | cons d ds ih => rw [Decl.functionsAll, ih, flatMap_cons]

theorem Stmt.functionsAll_eq {ss : List Stmt} : Stmt.functionsAll depth ss = ss.flatMap (Stmt.functions depth) := by
  induction ss with
  | nil => rfl
  | cons s ss ih => rw [Stmt.functionsAll, ih, flatMap_cons]

theorem Expr.functionsAll_eq {es : List Expr} : Expr.functionsAll depth es = es.flatMap (Expr.functions depth) := by
  induction es with
  | nil => rfl
  | cons e es ih => rw [Expr.functionsAll, ih, flatMap_cons]

/-- A declaration of a function, with a body or without. -/
def Decl.isFunction : Decl → Bool
  | .typed .. => false
  | .proto .. | .function .. => true

theorem Decl.isFunction_of_category (h : d.category = .function) : d.isFunction := by
  cases d with
  | typed mark role name type => cases role <;> cases h
  | proto | function => rfl

theorem Decl.isFunction_of_params {v : Decl} (h : v ∈ d.params) : d.isFunction := by
  cases d with
  | typed => cases h
  | proto | function => rfl

theorem Decl.isFunction_of_body {e : Expr} (h : d.body? = some e) : d.isFunction := by
  cases d with
  | typed | proto => cases h
  | function => rfl

namespace Node

/-- The functions of a node, each with its depth. There are none in types. -/
def functions (depth : Nat) : Node → List (Nat × Decl)
  | .decl d => d.functions depth
  | .stmt s => s.functions depth
  | .expr e => e.functions depth
  | .type _ => []

/-- The function that a node declares, with its depth. -/
def function (depth : Nat) : Node → List (Nat × Decl)
  | .decl d => if d.isFunction then [(depth, d)] else []
  | _ => []

theorem mem_function {r : Nat × Decl} : r ∈ n.function depth ↔ ∃ d, n = .decl d ∧ d.isFunction ∧ r = (depth, d) := by
  cases n with
  | decl d => by_cases h : d.isFunction <;> simp [function, h]
  | type | stmt | expr => simp [function]

theorem leads_decl {r : Nat × Node} : Leads (k, .decl d) r ↔
    (∃ v ∈ d.params, r = (k + 1, .decl v)) ∨ ∃ e, d.body? = some e ∧ r = (k + 1, .expr e) := by
  unfold Leads
  cases d with
  | typed => simp +contextual [parts, Decl.params, Decl.body?, isType]
  | proto => grind [parts, Decl.params, Decl.body?, isType]
  | function => grind [parts, Decl.params, Decl.body?, isType]

theorem exists_type_of_isType (h : n.isType) : ∃ t, n = .type t := by
  cases n with
  | type t => exact ⟨t, rfl⟩
  | decl | stmt | expr => cases h

theorem functions_params {params : List Decl} (h : ∀ d ∈ params, d.HasRole .parameter) (depth : Nat) :
    params.flatMap (Decl.functions depth) = [] := by
  refine flatMap_eq_nil_iff.mpr fun d hd => ?_
  have hrole := h d hd
  cases d with
  | typed => rfl
  | proto | function => exact hrole.elim

theorem functions_eq (hn : n.Formed) (htype : n.isType = false) (k : Nat) :
    n.functions (k + 1) = n.function (k + 1) ++ (n.parts true k).flatMap fun q => q.2.functions (q.1 + 1) := by
  cases n with
  | type t => cases htype
  | decl d =>
    cases d with
    | typed => rfl
    | proto mark name params result =>
      simp [functions, function, Decl.functions, Decl.isFunction, parts, flatMap_map,
        functions_params (show ∀ d ∈ params, d.HasRole .parameter from hn.2)]
    | function mark name params result body =>
      simp [functions, function, Decl.functions, Decl.isFunction, parts, flatMap_map,
        functions_params (show ∀ d ∈ params, d.HasRole .parameter from hn.2)]
  | stmt s =>
    cases s <;> simp [functions, function, Stmt.functions, Stmt.functionsAll_eq, parts, flatMap_map]
  | expr e =>
    cases e <;> simp [functions, function, Expr.functions, Decl.functionsAll_eq, Stmt.functionsAll_eq,
      Expr.functionsAll_eq, parts, flatMap_map]

theorem parts_false_sublist (k : Nat) (n : Node) : (n.parts false k).Sublist (n.parts true k) := by
  cases n with
  | decl d =>
    cases d with
    | function mark name params result body => simp [parts]
    | typed | proto => exact .refl _
  | type t => cases t <;> exact .refl _
  | stmt s => cases s <;> exact .refl _
  | expr e => cases e <;> exact .refl _

theorem parts_false_subset (k : Nat) (n : Node) : n.parts false k ⊆ n.parts true k := (parts_false_sublist k n).subset

theorem level_eq_of_parts (hn : ∀ d, n ≠ .decl d) (hq : q ∈ n.parts b k) : q.1 = k := by
  cases n with
  | decl d => exact absurd rfl (hn d)
  | type t => cases t <;> grind [parts]
  | stmt s => cases s <;> grind [parts]
  | expr e => cases e <;> grind [parts]

theorem level_of_parts (hn : n.Formed) (hq : q ∈ n.parts false k) :
    q.1 = k ∨ ∃ d, q.2 = .decl d ∧ d.HasRole .parameter := by
  cases n with
  | decl d =>
    cases d with
    | typed => exact .inl (by simp_all [parts])
    | proto mark name params result =>
      rcases mem_append.mp hq with hq | hq
      · obtain ⟨d, hd, rfl⟩ := mem_map.mp hq
        exact .inr ⟨d, rfl, hn.2 d hd⟩
      · exact .inl (by simp_all)
    | function mark name params result body =>
      rcases mem_append.mp hq with hq | hq
      · obtain ⟨d, hd, rfl⟩ := mem_map.mp hq
        exact .inr ⟨d, rfl, hn.2 d hd⟩
      · exact .inl (by simp_all)
  | type | stmt | expr => exact .inl (level_eq_of_parts (by simp) hq)

theorem declared_of_parts (hn : n.Formed) (hdecl : ∀ d, n ≠ .decl d) (htype : n.isType = false) {j : Nat}
    (hd : (j, .decl d) ∈ n.parts true k) : d.Declared := by
  cases n with
  | decl d => exact absurd rfl (hdecl d)
  | type t => cases htype
  | stmt s => cases s <;> simp [parts] at hd
  | expr e =>
    cases e with
    | block mark stmts value decls =>
      have hdeclared : ∀ d ∈ decls, d.Declared := hn
      simp only [parts, mem_append, mem_map, mem_singleton, Prod.mk.injEq, reduceCtorEq, and_false,
        exists_false, or_false, Node.decl.injEq] at hd
      obtain ⟨e, he, -, rfl⟩ := hd
      exact hdeclared e he
    | _ => simp [parts] at hd

theorem enter_mem_walk {m : Node} (k : Nat) : .enter m ∈ n.walk b ↔
    m = n ∨ ∃ q ∈ n.parts b k, .enter m ∈ q.2.walk b := by
  rw [walk_eq b k, around, mem_cons, mem_append, mem_flatMap]
  simp

theorem enter_part_mem_walk {m : Node} (h : .enter m ∈ n.walk b) (hq : q ∈ m.parts b k) : .enter q.2 ∈ n.walk b := by
  induction (0 : Nat), n using induct with
  | h j n ih =>
    rcases (enter_mem_walk j).mp h with rfl | ⟨r, hr, h⟩
    · exact (enter_mem_walk k).mpr (.inr ⟨q, hq, (enter_mem_walk 0).mpr (.inl rfl)⟩)
    · have hr' : r ∈ n.parts true j := by
        cases b with
        | true => exact hr
        | false => exact parts_false_subset j n hr
      exact (enter_mem_walk j).mpr (.inr ⟨r, hr, ih r hr' h⟩)

theorem mem_nodes_of_walk {m : Node} (h : .enter m ∈ n.walk false) : m ∈ n.nodes := by
  induction (0 : Nat), n using induct with
  | h k n ih =>
    rcases (enter_mem_walk k).mp h with rfl | ⟨q, hq, h⟩
    · exact mem_nodes_self _
    · have hq := parts_false_subset k n hq
      exact nodes_subset_of_parts hq (ih q hq h)

end Node

namespace Program

variable {p : Program}

theorem InCode.of_functions (hp : p.Formed) (hn : p.InCode (k, n)) (htype : n.isType = false)
    {r : Nat × Decl} (hr : r ∈ n.functions (k + 1)) :
    ∃ j, r.1 = j + 1 ∧ p.InCode (j, .decl r.2) ∧ r.2.isFunction := by
  induction k, n using Node.induct with
  | h k n ih =>
    rw [Node.functions_eq (hp.formed _ hn.mem_levels) htype, mem_append, mem_flatMap] at hr
    rcases hr with hr | ⟨q, hq, hr⟩
    · obtain ⟨d, rfl, hfunction, rfl⟩ := Node.mem_function.mp hr
      exact ⟨k, rfl, hn, hfunction⟩
    · cases hqtype : q.2.isType with
      | true =>
        obtain ⟨t, heq⟩ := Node.exists_type_of_isType hqtype
        rw [heq] at hr
        cases hr
      | false => exact ih q hq (hn.part hq hqtype) hqtype hr

theorem InCode.functions_subset (hp : p.Formed) (hd : d ∈ p.decls)
    (hpath : Relation.ReflTransGen Node.Leads (0, .decl d) q) :
    q.2.isType = false ∧ q.2.functions (q.1 + 1) ⊆ d.functions 1 := by
  induction hpath with
  | refl => exact ⟨rfl, List.Subset.refl _⟩
  | @tail q r hpath hr ih =>
    have hq : p.InCode q := ⟨d, hd, hpath⟩
    refine ⟨hr.2, List.Subset.trans ?_ ih.2⟩
    rw [Node.functions_eq (hp.formed _ hq.mem_levels) ih.1]
    exact fun x hx => mem_append_right _ (mem_flatMap.mpr ⟨r, hr.1, hx⟩)

theorem Formed.role_of_params (hp : p.Formed) {v : Decl} (hd : p.Has (.decl d)) (hv : v ∈ d.params) :
    v.HasRole .parameter := by
  obtain ⟨k, hk⟩ := hd
  have hformed := hp.formed _ hk
  cases d with
  | typed => cases hv
  | proto | function => exact hformed.2 v hv

theorem InCode.isType (h : p.InCode q) : q.2.isType = false := by
  obtain ⟨d, -, hpath⟩ := h
  rcases Relation.ReflTransGen.cases_tail hpath with rfl | ⟨r, -, hr⟩
  · rfl
  · exact hr.2

theorem mem_functionsAll (hp : p.Formed) : (depth, d) ∈ Decl.functionsAll 1 p.decls ↔
    ∃ k, depth = k + 1 ∧ p.InCode (k, .decl d) ∧ d.isFunction := by
  rw [Decl.functionsAll_eq, mem_flatMap]
  constructor
  · rintro ⟨e, he, hd⟩
    exact InCode.of_functions hp (n := .decl e) ⟨e, he, .refl⟩ rfl hd
  · rintro ⟨k, rfl, ⟨e, he, hpath⟩, hfunction⟩
    refine ⟨e, he, (InCode.functions_subset hp he hpath).2 ?_⟩
    cases d with
    | typed => cases hfunction
    | proto => exact mem_singleton_self _
    | function => exact mem_cons_self

section
variable {b : Bindings} {s : Typer}

theorem inCode_or_inert (hp : p.Formed) (hs : s.Resolved p b) (hq : q ∈ p.levels) : p.InCode q ∨ q.2.Inert := by
  refine levels_induct (P := fun k n => p.InCode (k, n) ∨ n.Inert) (fun d hd => .inl ⟨d, hd, .refl⟩) ?_ hq
  intro k n hn h r hr
  rcases h with h | h
  · cases htype : r.2.isType with
    | false => exact .inl (h.part hr htype)
    | true =>
      obtain ⟨t, heq⟩ := Node.exists_type_of_isType htype
      rw [heq]
      exact .inr trivial
  · exact .inr (h.part hp hs ⟨k, hn⟩ hr)

/-- A node that is entered on the way through a node, but not through the bodies of functions in it, is on the
same level, or it is part of a type or a parameter. -/
theorem InCode.own (hp : p.Formed) (hs : s.Resolved p b) {m : Node} (hn : p.InCode (k, n))
    (hm : .enter m ∈ n.walk false) :
    p.InCode (k, m) ∨ m.Inert ∨ ∃ d, m = .decl d ∧ d.HasRole .parameter := by
  induction k, n using Node.induct with
  | h k n ih =>
    rcases (Node.enter_mem_walk k).mp hm with rfl | ⟨q, hq, hm⟩
    · exact .inl hn
    have hpart := Node.parts_false_subset k n hq
    have hinert : ∀ t, q.2 = .type t → m.Inert := fun t heq => by
      have ht : p.Has (.type t) := heq ▸ hn.has.part hpart
      exact Node.Inert.nodes hp hs ht trivial m (Node.mem_nodes_of_walk (heq ▸ hm))
    cases htype : q.2.isType with
    | true =>
      obtain ⟨t, heq⟩ := Node.exists_type_of_isType htype
      exact .inr (.inl (hinert t heq))
    | false =>
      rcases Node.level_of_parts (hp.formed _ hn.mem_levels) hq with rfl | ⟨d, heq, hrole⟩
      · exact ih q hpart (hn.part hpart htype) hm
      · -- a parameter has nothing but its type
        cases d with
        | proto | function => exact hrole.elim
        | typed mark role name type =>
          rw [heq] at hm
          rcases (Node.enter_mem_walk 0).mp hm with rfl | ⟨r, hr, hm⟩
          · exact .inr (.inr ⟨_, rfl, hrole⟩)
          · obtain rfl := mem_singleton.mp hr
            have ht : p.Has (.type type) := (heq ▸ hn.has.part hpart : p.Has (.decl (.typed mark role name type))).part
              (k := 0) (mem_singleton_self _)
            exact .inr (.inl (Node.Inert.nodes hp hs ht trivial m (Node.mem_nodes_of_walk hm)))

end

theorem InCode.top (h : p.InCode (0, n)) : ∃ d ∈ p.decls, n = .decl d := by
  obtain ⟨d, hd, hpath⟩ := h
  generalize hq : (0, n) = q at hpath
  induction hpath generalizing n with
  | refl =>
    cases hq
    exact ⟨d, hd, rfl⟩
  | @tail q r hpath hr ih =>
    subst hq
    obtain ⟨j, m⟩ := q
    obtain rfl : j = 0 := Nat.le_zero.mp (Node.le_of_parts hr.1)
    obtain ⟨e, he, rfl⟩ := ih rfl
    -- code leads deeper from a declaration
    rcases Node.leads_decl.mp hr with ⟨v, -, heq⟩ | ⟨body, -, heq⟩ <;> cases heq

theorem InCode.home (hp : p.Formed) (h : p.InCode (k + 1, n)) : ∃ f, p.InCode (k, .decl f) ∧ f.isFunction ∧
      (.enter n ∈ f.ownWalk ∧ (∀ d, n = .decl d → d.Declared) ∨ ∃ d ∈ f.params, n = .decl d) := by
  obtain ⟨d, hd, hpath⟩ := h
  generalize hq : (k + 1, n) = q at hpath
  induction hpath generalizing k n with
  | refl => cases hq
  | @tail q r hpath hr ih =>
    subst hq
    have hcode : p.InCode q := ⟨d, hd, hpath⟩
    obtain ⟨j, m⟩ := q
    have hbelow : m.parts true j = m.parts false j → (∀ d, m ≠ .decl d) → m.isType = false →
        ∃ f, p.InCode (k, .decl f) ∧ f.isFunction ∧
          (.enter n ∈ f.ownWalk ∧ (∀ d, n = .decl d → d.Declared) ∨ ∃ d ∈ f.params, n = .decl d) := by
      intro hparts hdecl htype
      have hlevel : k + 1 = j := Node.level_eq_of_parts hdecl hr.1
      obtain ⟨f, hf, hfunction, hm⟩ := ih (k := k) (n := m) (by rw [hlevel])
      obtain ⟨hm, -⟩ | ⟨d, -, hm⟩ := hm
      · have hn : (k + 1, n) ∈ m.parts false j := hparts ▸ hr.1
        refine ⟨f, hf, hfunction, .inl ⟨?_, ?_⟩⟩
        · cases f with
          | typed | proto => cases hm
          | function mark name params result body => exact Node.enter_part_mem_walk (n := .expr body) hm hn
        · rintro d rfl
          exact Node.declared_of_parts (hp.formed _ hcode.mem_levels) hdecl htype hr.1
      · exact absurd hm (hdecl d)
    cases m with
    | type t => exact absurd hcode.isType (by simp [Node.isType])
    | stmt s => exact hbelow (by cases s <;> rfl) (by simp) rfl
    | expr e => exact hbelow (by cases e <;> rfl) (by simp) rfl
    | decl f =>
      rcases Node.leads_decl.mp hr with ⟨d, hd, heq⟩ | ⟨body, hbody, heq⟩ <;> cases heq
      · exact ⟨f, hcode, Decl.isFunction_of_params hd, .inr ⟨d, hd, rfl⟩⟩
      · refine ⟨f, hcode, Decl.isFunction_of_body hbody, .inl ⟨?_, by simp⟩⟩
        rw [Decl.ownWalk, hbody]
        exact (Node.enter_mem_walk (n := .expr body) 0).mpr (.inl rfl)

end Program

end MmixCompiler
