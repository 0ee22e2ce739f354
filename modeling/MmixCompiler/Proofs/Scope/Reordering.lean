import Mathlib.Data.Multiset.Bind
import MmixCompiler.Proofs.Scope.Lexical

/-! The order of declarations has no effect on names. Wherever the declarations of blocks and of the top level are put
in another order, names are bound in the one program if they are bound in the other, and to the same declarations. -/

namespace MmixCompiler

variable {d : Decl} {n : Node}

/-- Another order for the declarations of every block, and for those of the top level. -/
structure Reordering where
  top : List Decl → List Decl
  block : NodeId → List Decl → List Decl
  top_perm : ∀ ds, (top ds).Perm ds
  block_perm : ∀ id ds, (block id ds).Perm ds

mutual

def Decl.reorder (ρ : Reordering) : Decl → Decl
  | .typed mark role name type => .typed mark role name (type.reorder ρ)
  | .proto mark name params result => .proto mark name (Decl.reorderAll ρ params) (result.reorder ρ)
  | .function mark name params result body =>
    .function mark name (Decl.reorderAll ρ params) (result.reorder ρ) (body.reorder ρ)

def TypeExpr.reorder (ρ : Reordering) : TypeExpr → TypeExpr
  | .atom mark type => .atom mark type
  | .named mark name => .named mark name
  | .ptr mark target => .ptr mark (target.reorder ρ)
  | .arr mark length element => .arr mark (length.reorder ρ) (element.reorder ρ)
  | .record mark components => .record mark (Decl.reorderAll ρ components)

def Stmt.reorder (ρ : Reordering) : Stmt → Stmt
  | .expr mark value => .expr mark (value.reorder ρ)
  | .assign mark dst src => .assign mark (dst.reorder ρ) (src.reorder ρ)
  | .cond mark test yes no => .cond mark (test.reorder ρ) (Stmt.reorderAll ρ yes) (Stmt.reorderAll ρ no)
  | .loop mark test body => .loop mark (test.reorder ρ) (Stmt.reorderAll ρ body)

def Expr.reorder (ρ : Reordering) : Expr → Expr
  | .lit mark value => .lit mark value
  | .name mark name => .name mark name
  | .call mark name args => .call mark name (Expr.reorderAll ρ args)
  | .binary mark op lhs rhs => .binary mark op (lhs.reorder ρ) (rhs.reorder ρ)
  | .unary mark op operand => .unary mark op (operand.reorder ρ)
  | .cast mark value type => .cast mark (value.reorder ρ) (type.reorder ρ)
  | .new mark type => .new mark (type.reorder ρ)
  | .del mark value => .del mark (value.reorder ρ)
  | .index mark array index => .index mark (array.reorder ρ) (index.reorder ρ)
  | .field mark record name => .field mark (record.reorder ρ) name
  | .block mark stmts value decls =>
    .block mark (Stmt.reorderAll ρ stmts) (value.reorder ρ) (ρ.block mark.id (Decl.reorderAll ρ decls))

def Decl.reorderAll (ρ : Reordering) : List Decl → List Decl
  | [] => []
  | d :: ds => d.reorder ρ :: Decl.reorderAll ρ ds

def Stmt.reorderAll (ρ : Reordering) : List Stmt → List Stmt
  | [] => []
  | t :: ts => t.reorder ρ :: Stmt.reorderAll ρ ts

def Expr.reorderAll (ρ : Reordering) : List Expr → List Expr
  | [] => []
  | e :: es => e.reorder ρ :: Expr.reorderAll ρ es

end

def Program.reorder (ρ : Reordering) (p : Program) : Program := ⟨ρ.top (Decl.reorderAll ρ p.decls)⟩

def Node.reorder (ρ : Reordering) : Node → Node
  | .decl d => .decl (d.reorder ρ)
  | .type t => .type (t.reorder ρ)
  | .stmt t => .stmt (t.reorder ρ)
  | .expr e => .expr (e.reorder ρ)

attribute [local simp] Decl.reorder TypeExpr.reorder Stmt.reorder Expr.reorder Node.reorder

section
variable {ρ : Reordering}

theorem Decl.reorderAll_eq {ds : List Decl} : Decl.reorderAll ρ ds = ds.map (Decl.reorder ρ) := by
  induction ds with
  | nil => rfl
  | cons d ds ih => rw [Decl.reorderAll, ih, List.map_cons]

theorem Stmt.reorderAll_eq {ts : List Stmt} : Stmt.reorderAll ρ ts = ts.map (Stmt.reorder ρ) := by
  induction ts with
  | nil => rfl
  | cons t ts ih => rw [Stmt.reorderAll, ih, List.map_cons]

theorem Expr.reorderAll_eq {es : List Expr} : Expr.reorderAll ρ es = es.map (Expr.reorder ρ) := by
  induction es with
  | nil => rfl
  | cons e es ih => rw [Expr.reorderAll, ih, List.map_cons]

@[simp] theorem Decl.name_reorder : (d.reorder ρ).name = d.name := by
  cases d <;> simp only [Decl.reorder, Decl.name]

@[simp] theorem Decl.category_reorder : (d.reorder ρ).category = d.category := by
  rcases d with ⟨mark, role, name, type⟩ | _ | _
  · cases role <;> simp only [Decl.reorder, Decl.category]
  · simp only [Decl.reorder, Decl.category]
  · simp only [Decl.reorder, Decl.category]

@[simp] theorem Node.id_reorder : (n.reorder ρ).id = n.id := by
  rcases n with d | t | t | e
  · cases d <;> simp only [Node.reorder, Decl.reorder, Node.id, Node.mark, Decl.mark]
  · cases t <;> simp only [Node.reorder, TypeExpr.reorder, Node.id, Node.mark, TypeExpr.mark]
  · cases t <;> simp only [Node.reorder, Stmt.reorder, Node.id, Node.mark, Stmt.mark]
  · cases e <;> simp only [Node.reorder, Expr.reorder, Node.id, Node.mark, Expr.mark]

@[simp] theorem Node.use?_reorder : (n.reorder ρ).use? = n.use? := by
  rcases n with d | t | t | e
  · rfl
  · cases t <;> simp only [Node.reorder, TypeExpr.reorder, Node.use?]
  · rfl
  · cases e <;> simp only [Node.reorder, Expr.reorder, Node.use?]

theorem nodup_names_reorder {ds ds' : List Decl} (h : ds'.Perm (ds.map (Decl.reorder ρ))) :
    (ds'.map Decl.name).Nodup ↔ (ds.map Decl.name).Nodup := by
  rw [(h.map Decl.name).nodup_iff, List.map_map]
  simp only [Function.comp_def, Decl.name_reorder]

theorem Node.declaresOnce_reorder : (n.reorder ρ).DeclaresOnce ↔ n.DeclaresOnce := by
  rcases n with d | t | t | e
  · cases d <;> simp only [Node.reorder, Decl.reorder, DeclaresOnce]
    exact nodup_names_reorder (.of_eq Decl.reorderAll_eq)
  · rfl
  · rfl
  · cases e <;> simp only [Node.reorder, Expr.reorder, DeclaresOnce]
    exact nodup_names_reorder ((ρ.block_perm ..).trans (.of_eq Decl.reorderAll_eq))

end

/-- The scopes hold the same declarations, put in the other order inside. -/
def Surroundings.Reorders (ρ : Reordering) (Γ' Γ : Surroundings) : Prop :=
  List.Forall₂ (fun ds' ds => ds'.Perm (ds.map (Decl.reorder ρ))) Γ' Γ

/-- A node in its scopes, and what they become. -/
def Situates (ρ : Reordering) (q' q : Surroundings × Node) : Prop :=
  q'.1.Reorders ρ q.1 ∧ q'.2 = q.2.reorder ρ

section
variable {ρ : Reordering} {Γ' Γ : Surroundings}

/-- The nearest declaration is the same one. -/
theorem nearest_reorder {name : String} {d' : Decl} (hΓ : Γ'.Reorders ρ Γ) :
    Nearest name Γ' d' ↔ ∃ d, Nearest name Γ d ∧ d' = d.reorder ρ := by
  induction hΓ with
  | nil =>
    constructor
    · rintro ⟨⟩
    · rintro ⟨d, ⟨⟩, -⟩
  | @cons ds' ds Γ' Γ hds _ ih =>
    have hmem : ∀ e', e' ∈ ds' ↔ ∃ e ∈ ds, e.reorder ρ = e' := fun e' => by rw [hds.mem_iff, List.mem_map]
    have hnone : (∀ e' ∈ ds', e'.name ≠ name) ↔ ∀ e ∈ ds, e.name ≠ name := by simp [hmem]
    constructor
    · rintro (⟨hd', hname⟩ | ⟨hnone', hd'⟩)
      · obtain ⟨d, hd, rfl⟩ := (hmem d').mp hd'
        exact ⟨d, .here hd (Decl.name_reorder.symm.trans hname), rfl⟩
      · obtain ⟨d, hd, rfl⟩ := ih.mp hd'
        exact ⟨d, .outside (hnone.mp hnone') hd, rfl⟩
    · rintro ⟨d, ⟨hd, hname⟩ | ⟨hnone', hd⟩, rfl⟩
      · exact .here ((hmem _).mpr ⟨d, hd, rfl⟩) (Decl.name_reorder.trans hname)
      · exact .outside (hnone.mpr hnone') (ih.mpr ⟨d, hd, rfl⟩)

theorem exists_binds_reorder {q' q : Surroundings × Node} (h : Situates ρ q' q) :
    (∃ b, Binds q' b) ↔ ∃ b, Binds q b := by
  obtain ⟨Γ', n'⟩ := q'
  obtain ⟨hΓ, rfl : n' = q.2.reorder ρ⟩ := h
  simp only [Binds, Node.declaresOnce_reorder, Node.use?_reorder, Node.id_reorder, nearest_reorder hΓ]
  cases q.2.use? <;> simp

theorem rel_situates {α : Type} {r : α → α} {f : α → Node} (hf : ∀ x, f (r x) = (f x).reorder ρ)
    (hΓ : Γ'.Reorders ρ Γ) {l l' : List α} (h : l'.Perm (l.map r)) :
    Multiset.Rel (Situates ρ) (l'.map fun x => (Γ', f x)) (l.map fun x => (Γ, f x)) := by
  rw [Multiset.coe_eq_coe.mpr (h.map _), List.map_map, ← Multiset.map_coe, ← Multiset.map_coe, Multiset.rel_map]
  exact Multiset.rel_refl_of_refl_on fun x _ => ⟨hΓ, hf x⟩

theorem Node.parts_reorder (h : n.opensScope = false) :
    (n.reorder ρ).parts true 0 = (n.parts true 0).map fun q => (q.1, q.2.reorder ρ) := by
  rcases n with d | t | t | e
  · cases d <;> simp [parts, Decl.reorderAll_eq, opensScope] at h ⊢
  · cases t <;> simp [parts, Decl.reorderAll_eq]
  · cases t <;> simp [parts, Stmt.reorderAll_eq, Function.comp_def]
  · cases e <;> simp [parts, Expr.reorderAll_eq, opensScope] at h ⊢

theorem Node.opensScope_reorder : (n.reorder ρ).opensScope = n.opensScope := by
  rcases n with d | t | t | e
  · cases d <;> simp only [Node.reorder, Decl.reorder, opensScope]
  · rfl
  · rfl
  · cases e <;> simp only [Node.reorder, Expr.reorder, opensScope]

theorem Node.situatedParts_reorder (hΓ : Γ'.Reorders ρ Γ) :
    Multiset.Rel (Situates ρ) ((n.reorder ρ).situatedParts Γ') (n.situatedParts Γ) := by
  cases hopens : n.opensScope with
  | false =>
    rw [situatedParts_of_not_opensScope hopens, situatedParts_of_not_opensScope (opensScope_reorder.trans hopens)]
    exact rel_situates (f := Prod.snd) (fun _ => rfl) hΓ (.of_eq (parts_reorder hopens))
  | true =>
    unfold opensScope at hopens
    split at hopens
    · next mark name params result body =>
      have hparams : Decl.reorderAll ρ params = params.map (Decl.reorder ρ) := Decl.reorderAll_eq
      have hinner : Surroundings.Reorders ρ (Decl.reorderAll ρ params :: Γ') (params :: Γ) := .cons (.of_eq hparams) hΓ
      have hsignature := rel_situates (f := Node.decl) (fun _ => rfl) hΓ (.of_eq hparams)
      have hresult := rel_situates (f := Node.type) (l := [result]) (fun _ => rfl) hΓ (.refl _)
      have hbody := rel_situates (f := Node.expr) (l := [body]) (fun _ => rfl) hinner (.refl _)
      simp only [Node.reorder, Decl.reorder, situatedParts]
      exact hsignature.add (hresult.add hbody)
    · next mark stmts value decls =>
      have hdecls := (ρ.block_perm mark.id (Decl.reorderAll ρ decls)).trans (.of_eq Decl.reorderAll_eq)
      have hinner : Surroundings.Reorders ρ (_ :: Γ') (decls :: Γ) := .cons hdecls hΓ
      have hscope := rel_situates (f := Node.decl) (fun _ => rfl) hinner hdecls
      have hstmts := rel_situates (f := Node.stmt) (l := stmts) (fun _ => rfl) hinner (.of_eq Stmt.reorderAll_eq)
      have hvalue := rel_situates (f := Node.expr) (l := [value]) (fun _ => rfl) hinner (.refl _)
      simp only [Node.reorder, Expr.reorder, situatedParts]
      exact hscope.add (hstmts.add hvalue)
    · cases hopens

theorem rel_flatMap_situated {qs' qs : List (Surroundings × Node)} (h : Multiset.Rel (Situates ρ) qs' qs)
    (hsituated : ∀ q ∈ qs, ∀ q', Situates ρ q' q → Multiset.Rel (Situates ρ) (q'.2.situated q'.1) (q.2.situated q.1)) :
    Multiset.Rel (Situates ρ) (qs'.flatMap fun q => q.2.situated q.1) (qs.flatMap fun q => q.2.situated q.1) := by
  rw [← Multiset.coe_bind, ← Multiset.coe_bind]
  exact Multiset.rel_bind (fun _ _ hq => hq) (h.mono fun q' _ q hq => hsituated q hq q')

theorem Node.situated_reorder (n : Node) (hΓ : Γ'.Reorders ρ Γ) :
    Multiset.Rel (Situates ρ) ((n.reorder ρ).situated Γ') (n.situated Γ) := by
  induction Γ, n using situated_induct generalizing Γ' with
  | h Γ n ih =>
    rw [situated_eq, situated_eq, ← Multiset.cons_coe, ← Multiset.cons_coe]
    refine .cons ⟨hΓ, rfl⟩ (rel_flatMap_situated (situatedParts_reorder hΓ) ?_)
    rintro q hq ⟨Γ', n'⟩ ⟨hΓ', rfl : n' = q.2.reorder ρ⟩
    exact ih q hq hΓ'

end

namespace Program
variable {ρ : Reordering} {p : Program}

theorem situated_reorder (ρ : Reordering) (p : Program) :
    Multiset.Rel (Situates ρ) (p.reorder ρ).situated p.situated := by
  have hdecls : (p.reorder ρ).decls.Perm (p.decls.map (Decl.reorder ρ)) :=
    (ρ.top_perm _).trans (.of_eq Decl.reorderAll_eq)
  have hΓ : Surroundings.Reorders ρ [(p.reorder ρ).decls] [p.decls] := .cons hdecls .nil
  have hnodes := rel_flatMap_situated (rel_situates (f := Node.decl) (fun _ => rfl) hΓ hdecls) fun q _ q' hq => by
    obtain ⟨Γ', n'⟩ := q'
    obtain ⟨hΓ', rfl : n' = q.2.reorder ρ⟩ := hq
    exact Node.situated_reorder q.2 hΓ'
  rwa [List.flatMap_map, List.flatMap_map] at hnodes

theorem Numbered.reorder (hp : p.Numbered) : (p.reorder ρ).Numbered := by
  have hids : ((p.reorder ρ).situated.map fun q => q.2.id).Perm (p.situated.map fun q => q.2.id) := by
    rw [← Multiset.coe_eq_coe, ← Multiset.map_coe, ← Multiset.map_coe, ← Multiset.rel_eq, Multiset.rel_map]
    refine (situated_reorder ρ p).mono fun q' _ q _ hq => ?_
    rw [hq.2, Node.id_reorder]
  rw [Numbered, ← map_id_situated] at hp ⊢
  exact hids.nodup_iff.mpr hp

theorem Numbered.getElem?_bind (hp : p.Numbered) {b : Bindings} (hb : p.bind = .ok b) {id : NodeId} :
    b[id]? = some d ↔ ∃ q ∈ p.situated, ∃ name category,
      q.2.use? = some (name, category) ∧ q.2.id = id ∧ Nearest name q.1 d := by
  have hscoped : p.LexicallyScoped := exists_bind_iff.mp ⟨b, hb⟩
  obtain ⟨-, bs, hbs, rfl⟩ := bind_eq_ok_iff.mp hb
  constructor
  · intro hd
    obtain ⟨q, hq, huse, hid⟩ := hbs.exists_node ((hp.getElem?_ofList hbs).mp hd)
    obtain ⟨⟨name, category⟩, huse⟩ := Option.isSome_iff_exists.mp huse
    obtain ⟨e, he, hnearest, -⟩ := hbs.exists_binding hq huse
    obtain rfl : q.2.id = id := hid
    have hsame : some d = some e := hd.symm.trans ((hp.getElem?_ofList hbs).mpr he)
    exact ⟨q, hq, name, category, huse, rfl, Option.some.inj hsame ▸ hnearest⟩
  · rintro ⟨q, hq, name, category, huse, rfl, hd⟩
    obtain ⟨e, he, hnearest, -⟩ := hbs.exists_binding hq huse
    obtain ⟨top, htop, hq⟩ := List.mem_flatMap.mp hq
    have hscopes := Node.nodup_surroundings (by simpa using hscoped.top)
      (fun r hr => hscoped.once r (List.mem_flatMap.mpr ⟨top, htop, hr⟩)) hq
    rw [hd.unique hscopes hnearest]
    exact (hp.getElem?_ofList hbs).mpr he

theorem exists_bind_reorder : (∃ b, (p.reorder ρ).bind = .ok b) ↔ ∃ b, p.bind = .ok b := by
  have hexists : ∀ p : Program, (∃ b, p.bind = .ok b) ↔
      (p.decls.map Decl.name).Nodup ∧ ∀ q ∈ p.situated, ∃ b, Binds q b := fun p => by
    simp only [bind_eq_ok_iff, ← Resolves.exists_iff]
    constructor
    · rintro ⟨b, htop, bs, hbs, -⟩
      exact ⟨htop, bs, hbs⟩
    · rintro ⟨htop, bs, hbs⟩
      exact ⟨_, htop, bs, hbs, rfl⟩
  have htop : ((p.reorder ρ).decls.map Decl.name).Nodup ↔ (p.decls.map Decl.name).Nodup :=
    nodup_names_reorder ((ρ.top_perm _).trans (.of_eq Decl.reorderAll_eq))
  have hsituated := situated_reorder ρ p
  rw [hexists, hexists, htop]
  refine and_congr_right fun _ => ⟨fun h q hq => ?_, fun h q' hq' => ?_⟩
  · obtain ⟨q', hq', hrel⟩ := Multiset.exists_mem_of_rel_of_mem (Multiset.rel_flip.mpr hsituated) hq
    exact (exists_binds_reorder hrel).mp (h q' hq')
  · obtain ⟨q, hq, hrel⟩ := Multiset.exists_mem_of_rel_of_mem hsituated hq'
    exact (exists_binds_reorder hrel).mpr (h q hq)

/-- The order of declarations has no effect on names. If the declarations of the blocks of a program, or those of its
top level, are put in another order, names are bound if they were before, and every use is bound to the declaration
that it was bound to, itself with its declarations in the other order. -/
theorem bind_reorder {src : String} {p : Program} (hp : (Program.parse src).1 = .ok p) (ρ : Reordering) :
    ((∃ b, (p.reorder ρ).bind = .ok b) ↔ ∃ b, p.bind = .ok b) ∧
      ∀ b b', p.bind = .ok b → (p.reorder ρ).bind = .ok b' → ∀ id : NodeId,
        b'[id]? = (b[id]?).map (Decl.reorder ρ) := by
  have hnumbered : p.Numbered := (Program.formed_parse hp).numbered
  refine ⟨exists_bind_reorder, fun b b' hb hb' id => ?_⟩
  have hsituated := situated_reorder ρ p
  ext d'
  rw [Option.map_eq_some_iff, hnumbered.reorder.getElem?_bind hb']
  simp only [hnumbered.getElem?_bind hb]
  constructor
  · rintro ⟨q', hq', name, category, huse, hid, hnearest⟩
    obtain ⟨q, hq, hΓ, hnode⟩ := Multiset.exists_mem_of_rel_of_mem hsituated hq'
    obtain ⟨d, hd, rfl⟩ := (nearest_reorder hΓ).mp hnearest
    rw [hnode, Node.use?_reorder] at huse
    rw [hnode, Node.id_reorder] at hid
    exact ⟨d, ⟨q, hq, name, category, huse, hid, hd⟩, rfl⟩
  · rintro ⟨d, ⟨q, hq, name, category, huse, hid, hd⟩, rfl⟩
    obtain ⟨q', hq', hΓ, hnode⟩ := Multiset.exists_mem_of_rel_of_mem (Multiset.rel_flip.mpr hsituated) hq
    refine ⟨q', hq', name, category, ?_, ?_, (nearest_reorder hΓ).mpr ⟨d, hd, rfl⟩⟩
    · rw [hnode, Node.use?_reorder, huse]
    · rw [hnode, Node.id_reorder, hid]

/-- Uses before and after the declarations, on the top level and in a block. -/
def forward : String :=
  "var a: t; fun f(): t = \x7b x = g(a); : x where var x: u; typ u: t; fun g(y: u): u = y; \x7d; typ t: int;"

/-- Every scope with its last declaration first. -/
def backwards : Reordering := ⟨List.reverse, fun _ => List.reverse, List.reverse_perm, fun _ => List.reverse_perm⟩

theorem forward_backwards : ∃ p b b', (Program.parse forward).1 = .ok p ∧ p.bind = .ok b ∧
    (p.reorder backwards).bind = .ok b' ∧ ((p.reorder backwards).decls.map Decl.name) = ["t", "f", "a"] ∧
      ∀ id : NodeId, b'[id]? = (b[id]?).map (Decl.reorder backwards) := by
  have h : ((Program.parse forward).1.toOption.bind fun p => p.bind.toOption.map fun _ =>
      (p.reorder backwards).decls.map Decl.name) = some ["t", "f", "a"] := by
    rw [forward, parse_ofList]
    decide +kernel
  cases hp : (Program.parse forward).1 with
  | error e => simp [hp, Except.toOption] at h
  | ok p =>
    cases hb : p.bind with
    | error e => simp [hp, hb, Except.toOption] at h
    | ok b =>
      obtain ⟨hiff, hsame⟩ := bind_reorder hp backwards
      obtain ⟨b', hb'⟩ := hiff.mpr ⟨b, hb⟩
      refine ⟨p, b, b', rfl, hb, hb', ?_, hsame b b' hb hb'⟩
      simpa [hp, hb, Except.toOption] using h

end Program
end MmixCompiler
