import MmixCompiler.Proofs.Types.Plain

/-! Expressions that spell out plain types. They are resolved without a fault, to types that look the same. -/

namespace MmixCompiler

open List

/-- The expression spells out the type. -/
def TypeExpr.Spells (r : Registry) (t : TypeExpr) (c : TypeId) : Prop :=
  r.Plain c ∧ ∃ n, c < n ∧ t.bare = r.treeTo n c

section
variable {r : Registry} {t : TypeExpr} {c : TypeId}

theorem Expr.eq_lit_of_bare {e : Expr} {value : Literal} (h : e.bare = .lit .blank value) :
    ∃ mark, e = .lit mark value := by
  cases e <;> cases h
  exact ⟨_, rfl⟩

theorem Decl.eq_typed_of_bare {d : Decl} {role : Role} {name : String} {u : TypeExpr}
    (h : d.bare = .typed .blank role name u) : ∃ mark t, d = .typed mark role name t ∧ t.bare = u := by
  cases d <;> cases h
  exact ⟨_, _, rfl, rfl⟩

/-- An expression that spells out a type has its form, and its parts spell out the parts of the type, which were
entered before it. -/
theorem TypeExpr.Spells.cases (h : t.Spells r c) :
    (∃ mark type, t = .atom mark type ∧ r.get c = Registry.initial.get type.id) ∨
    (∃ mark u e, t = .ptr mark u ∧ r.get c = .ptr e ∧ e < c ∧ u.Spells r e) ∨
    (∃ mark mark' u e, ∃ length : Nat, t = .arr mark (.lit mark' (.int length)) u ∧
      r.get c = .arr length e ∧ 0 < length ∧
      r.get e ≠ .void ∧ e < c ∧ u.Spells r e) ∨
    ∃ mark components fields, t = .record mark components ∧ r.get c = .record fields ∧ (fields.map Prod.fst).Nodup ∧
      List.Forall₂ (fun d f => ∃ mark u, d = .typed mark .component f.1 u ∧ r.get f.2 ≠ .void ∧ f.2 < c ∧
        u.Spells r f.2)
        components fields := by
  obtain ⟨⟨hform, hvoid, hbefore, hplain⟩, n, hn, hbare⟩ := h
  obtain ⟨n, rfl⟩ := Nat.exists_eq_succ_of_ne_zero (Nat.ne_zero_of_lt hn)
  have hpart : ∀ e ∈ (r.get c).targets, ∀ u : TypeExpr, u.bare = r.treeTo n e → e < c ∧ u.Spells r e := fun e he u hu =>
    ⟨hbefore e he, hplain e he, n, Nat.lt_of_lt_of_le (hbefore e he) (Nat.le_of_lt_succ hn), hu⟩
  rw [Registry.treeTo] at hbare
  cases hget : r.get c with
  | int | char | bool | void =>
    rw [hget] at hbare
    cases t <;> cases hbare
    exact .inl ⟨_, _, rfl, rfl⟩
  | named => exact absurd hform (by simp [hget, Ty.Writable])
  | ptr e =>
    rw [hget] at hbare
    cases t with
    | ptr mark u =>
      exact .inr (.inl ⟨mark, u, e, rfl, rfl, hpart e (by simp [hget, Ty.targets]) u
        (TypeExpr.ptr.inj hbare).2⟩)
    | _ => cases hbare
  | arr length e =>
    rw [hget] at hbare hform
    obtain ⟨length, rfl⟩ := Int.eq_ofNat_of_zero_le (Int.le_of_lt hform.1)
    cases t with
    | arr mark size u =>
      obtain ⟨-, hsize, hu⟩ := TypeExpr.arr.inj hbare
      obtain ⟨mark', rfl⟩ := Expr.eq_lit_of_bare hsize
      refine .inr (.inr (.inl ⟨mark, mark', u, e, length, rfl, rfl, Int.natCast_pos.mp hform.1, ?_, ?_⟩))
      · exact hvoid e (by simp [Registry.parts, hget])
      · exact hpart e (by simp [hget, Ty.targets]) u hu
    | _ => cases hbare
  | record fields =>
    rw [hget] at hbare hform
    cases t with
    | record mark components =>
      have hfields := (TypeExpr.record.inj hbare).2
      rw [Decl.bareAll_eq, ← forall₂_eq_eq_eq, forall₂_map_left_iff, forall₂_map_right_iff] at hfields
      refine .inr (.inr (.inr ⟨mark, components, fields, rfl, rfl, hform.2.1, ?_⟩))
      have hmem : ∀ f ∈ fields, f.2 ∈ r.parts c := fun f hf => by simpa [Registry.parts, hget] using ⟨f.1, hf⟩
      refine ((forall₂_and_left fields components).mpr ⟨hmem, hfields.flip⟩).flip.imp ?_
      rintro d f ⟨hf, hd⟩
      obtain ⟨mark, u, rfl, hu⟩ := Decl.eq_typed_of_bare hd
      exact ⟨mark, u, rfl, hvoid _ hf, hpart _ (Registry.mem_targets_of_parts hf) u hu⟩
    | _ => cases hbare

variable {p : Program} {bindings : Bindings} {s : Typer} {x : TypeId}

/-- What is spelled out is resolved to a type that looks the same. -/
theorem Typer.Written.agrees (hs : s.Written p bindings) (ht : p.Has (.type t)) (h : t.Spells r c)
    (hx : s.typing.typeTypes[t.id]? = some x) {n m : Nat} (hn : c < n) (hm : x < m) :
    s.typing.registry.treeTo m x = r.treeTo n c ∧ s.typing.registry.textTo m x = r.textTo n c ∧
      s.typing.registry.bytesTo m x = r.bytesTo n c := by
  induction c using Nat.strong_induction_on generalizing t x n m with
  | h c ih =>
    obtain ⟨n, rfl⟩ := Nat.exists_eq_succ_of_ne_zero (Nat.ne_zero_of_lt hn)
    obtain ⟨m, rfl⟩ := Nat.exists_eq_succ_of_ne_zero (Nat.ne_zero_of_lt hm)
    have hdenotes := hs.denotes ht hx
    have hbefore := hs.sound.before x
    have hform : ∀ y, s.typing.registry.get x = y → (∀ name d, y ≠ .named name d) → s.typing.registry.form x = y :=
      fun y hy hne => by rw [Registry.form_of_rest (Registry.next?_eq_none.mpr fun name d => hy ▸ hne name d), hy]
    have hpart : ∀ {y e e'}, s.typing.registry.get x = y → (∀ name d, y ≠ .named name d) → e' ∈ y.targets → e < c →
        ∀ u : TypeExpr, p.Has (.type u) → u.Spells r e → s.typing.typeTypes[u.id]? = some e' →
        s.typing.registry.treeTo m e' = r.treeTo n e ∧ s.typing.registry.textTo m e' = r.textTo n e ∧
          s.typing.registry.bytesTo m e' = r.bytesTo n e := fun hy hne he' hlt u hhas hu hnoted =>
      ih _ hlt hhas hu hnoted (Nat.lt_of_lt_of_le hlt (Nat.le_of_lt_succ hn))
        (Nat.lt_of_lt_of_le (hbefore (hy ▸ hne) _ (hy ▸ he')) (Nat.le_of_lt_succ hm))
    simp only [Registry.treeTo, Registry.textTo, Registry.bytesTo, h.1.form_eq]
    rcases h.cases with ⟨mark, type, rfl, hget⟩ | ⟨mark, u, e, rfl, hget, hlt, hu⟩ |
      ⟨mark, mark', u, e, length, rfl, hget, -, -, hlt, hu⟩ | ⟨mark, components, fields, rfl, hget, -, hfields⟩
    · obtain rfl : x = type.id := hdenotes
      have hatom := hs.sound.atoms type.id (by cases type <;> decide)
      rw [hform _ hatom (by cases type <;> rintro _ _ ⟨⟩), hatom, hget]
      cases type <;> exact ⟨rfl, rfl, rfl⟩
    · obtain ⟨e', he', hget'⟩ := hdenotes
      have hhas : p.Has (.type u) := ht.part (k := 0) (mem_singleton_self _)
      obtain ⟨htree, htext, -⟩ := hpart hget' (by simp) (by simp [Ty.targets]) hlt u hhas hu he'
      simp only [hform _ hget' (by simp), hget', hget, htree, htext, and_self]
    · obtain ⟨k, e', hk, he', hget'⟩ := hdenotes
      obtain rfl : (length : Int) = k := by simpa [Expr.constant] using hk
      have hhas : p.Has (.type u) := ht.part (k := 0) (mem_cons_of_mem _ (mem_singleton_self _))
      obtain ⟨htree, htext, hbytes⟩ := hpart hget' (by simp) (by simp [Ty.targets]) hlt u hhas hu he'
      simp only [hform _ hget' (by simp), hget', hget, htree, htext, hbytes, and_self]
    · obtain ⟨fields', hget', hnoted⟩ := hdenotes
      have hhas : ∀ d ∈ components, p.Has (.decl d) := fun d hd => ht.part (k := 0) (mem_map.mpr ⟨d, hd, rfl⟩)
      have hmem : ∀ f ∈ fields', f.2 ∈ (Ty.record fields').targets := fun f hf => mem_map_of_mem hf
      have hnoted := (forall₂_and_left _ _).mpr ⟨hmem, ((forall₂_and_left _ _).mpr ⟨hhas, hnoted⟩).flip⟩
      have hfields : List.Forall₂ (fun f' f => f'.1 = f.1 ∧ s.typing.registry.treeTo m f'.2 = r.treeTo n f.2 ∧
          s.typing.registry.textTo m f'.2 = r.textTo n f.2 ∧ s.typing.registry.bytesTo m f'.2 = r.bytesTo n f.2)
          fields' fields := by
        refine (forall₂_comp hnoted hfields).imp ?_
        rintro f' f ⟨_, ⟨hf', hd, hname, hnote⟩, mark, u, rfl, -, hlt, hu⟩
        have hhas : p.Has (.type u) := hd.part (k := 0) (mem_singleton_self _)
        exact ⟨hname.symm, hpart hget' (by simp) hf' hlt u hhas hu (hs.declared _ hd rfl _ hnote)⟩
      have hmap : ∀ {β : Type} {f g : String × TypeId → β}, (∀ x y, x.1 = y.1 ∧ _ → f x = g y) →
          fields'.map f = fields.map g := fun hfg => by
        rw [← forall₂_eq_eq_eq, forall₂_map_left_iff, forall₂_map_right_iff]
        exact hfields.imp hfg
      simp only [hform _ hget' (by simp), hget', hget]
      refine ⟨congrArg _ (hmap ?_), congrArg (fun l => "rec(" ++ ", ".intercalate l ++ ")") (hmap ?_), ?_⟩
      · rintro x y ⟨hname, htree, -⟩
        rw [hname, htree]
      · rintro x y ⟨hname, -, htext, -⟩
        rw [hname, htext]
      · have hbytes := hmap (f := fun f => s.typing.registry.bytesTo m f.2) (g := fun f => r.bytesTo n f.2)
          fun x y h => h.2.2.2
        have hfold := congrArg (List.foldlM (fun total o => do Word.checked (total + (← o))) 0) hbytes
        rwa [foldlM_map, foldlM_map] at hfold

/-- What is known at any time while types are resolved. -/
structure Typer.Underway (p : Program) (bindings : Bindings) (s : Typer) : Prop where
  sound : s.Sound p
  grows : Grows p bindings (fun _ => True) {} s

theorem Typer.Underway.finds {own : NodeId → Prop} {s' : Typer} (hs : s.Underway p bindings)
    (h : s.Finds p bindings own x s') : s'.Underway p bindings :=
  ⟨h.sound, hs.grows.trans (h.grows.mono fun _ _ => trivial)⟩

open Infer

theorem Delivers.ofTypeOnce {id : NodeId} {find : Infer TypeId} (h : Delivers find s) :
    Delivers (ofTypeOnce id find) s := by
  simp only [Delivers, Infer.ofTypeOnce, yields_bind, yields_get]
  split
  · trivial
  · exact yields_bind.mpr (h.mono fun _ _ _ => trivial)

variable {follow : Decl → Infer TypeId}

namespace TypeExpr.Spells

theorem not_void (h : t.Spells r c) (hvoid : r.get c ≠ .void) (hs : s.Underway p bindings) (ht : p.Has (.type t))
    (hx : s.typing.typeTypes[t.id]? = some x) : s.typing.registry.isVoid x = false := by
  have hdenotes := hs.grows.denotes t ht (by simp) x hx
  have hform : ∀ y, s.typing.registry.get x = y → (∀ name d, y ≠ .named name d) → y ≠ .void →
      s.typing.registry.isVoid x = false := fun y hy hne hvoid => by
    rw [Registry.isVoid_eq_false, Registry.form_of_rest (Registry.next?_eq_none.mpr fun name d => hy ▸ hne name d), hy]
    exact hvoid
  rcases h.cases with ⟨mark, type, rfl, hget⟩ | ⟨mark, u, e, rfl, -⟩ | ⟨mark, mark', u, e, length, rfl, -⟩ |
    ⟨mark, components, fields, rfl, -⟩
  · obtain rfl : x = type.id := hdenotes
    have hatom := hs.sound.atoms type.id (by cases type <;> decide)
    exact hform _ hatom (by cases type <;> rintro _ _ ⟨⟩) (hget ▸ hvoid)
  · obtain ⟨_, -, hget⟩ := hdenotes
    exact hform _ hget (by simp) (by simp)
  · obtain ⟨_, _, -, -, hget⟩ := hdenotes
    exact hform _ hget (by simp) (by simp)
  · obtain ⟨_, hget, -⟩ := hdenotes
    exact hform _ hget (by simp) (by simp)

theorem delivers_storage {mark : Mark} {role : Role} {name : String} (hrole : role ≠ .type)
    (hd : p.Has (.decl (.typed mark role name t))) (h : t.Spells r c) (hvoid : r.get c ≠ .void)
    (hresolved : (Node.type t).Resolved p bindings follow) (hs : s.Underway p bindings)
    (ht : Delivers (t.resolve bindings follow) s) :
    Delivers ((Decl.typed mark role name t).resolve bindings follow) s := by
  have hresolve : (Decl.typed mark role name t).resolve bindings follow =
      storage mark.position name (ofDeclOnce mark.id (t.resolve bindings follow)) := by
    cases role with
    | type => exact absurd rfl hrole
    | _ => rfl
  have hhas : p.Has (.type t) := hd.part (k := 0) (mem_singleton_self _)
  have hfind : Yields (ofDeclOnce mark.id (t.resolve bindings follow)) s
      (fun a s' => s'.typing.registry.isVoid a = false) fun _ => False := by
    simp only [ofDeclOnce, yields_bind, yields_get]
    split
    · next a ha =>
      refine h.not_void hvoid hs hhas (hs.grows.declared _ hd ?_ (by simp) a ha)
      exact Decl.HasRole.isType_eq_false rfl hrole
    · refine yields_bind.mpr (((hresolved s hs.sound).and_delivers ht).mono ?_)
      rintro a s₁ ⟨hfinds, -, hnoted⟩
      have hnot := h.not_void hvoid (hs.finds hfinds) hhas hnoted
      exact hnot
  rw [hresolve, storage, Delivers]
  refine hfind.bind fun a s₁ hnot => ?_
  rw [yields_bind, yields_registry, if_neg (by simp [hnot])]
  trivial

theorem delivers_resolveFields (hresolved : ∀ n, p.Has n → n.Resolved p bindings follow) {components : List Decl}
    {fields : List (String × TypeId)} (h : List.Forall₂ (fun d f => ∃ mark u, d = .typed mark .component f.1 u ∧
      r.get f.2 ≠ .void ∧ u.Spells r f.2 ∧ ∀ s, p.Has (.type u) → s.Underway p bindings →
        Delivers (u.resolve bindings follow) s) components fields)
    (hhas : ∀ d ∈ components, p.Has (.decl d)) (hnodup : (fields.map Prod.fst).Nodup) {names : List String}
    (hnames : ∀ f ∈ fields, f.1 ∉ names) (hs : s.Underway p bindings) :
    Delivers (Decl.resolveFields bindings follow names components) s := by
  induction h generalizing names s with
  | nil => trivial
  | @cons d f components fields h _ ih =>
    obtain ⟨mark, u, rfl, hvoid, hu, hdelivers⟩ := h
    obtain ⟨hd, hhas⟩ := forall_mem_cons.mp hhas
    obtain ⟨hf, hnames⟩ := forall_mem_cons.mp hnames
    obtain ⟨hne, hnodup⟩ := nodup_cons.mp hnodup
    have htype : p.Has (.type u) := hd.part (k := 0) (mem_singleton_self _)
    rw [Decl.resolveFields, if_neg (show (Decl.typed mark .component f.1 u).name ∉ names from hf)]
    refine (hu.delivers_storage (by simp) hd hvoid (hresolved _ htype) hs (hdelivers s htype hs)).bind
      (hresolved _ hd rfl s hs.sound) ?_
    rintro a s₁ ⟨hfinds, -⟩
    refine yields_bind.mpr ((ih hhas hnodup (fun g hg => mem_cons.not.mpr ?_) (hs.finds hfinds)).mono
      fun _ _ _ => trivial)
    rintro (heq | hmem)
    · exact hne (mem_map.mpr ⟨g, hg, heq⟩)
    · exact hnames g hg hmem

theorem delivers (hresolved : ∀ n, p.Has n → n.Resolved p bindings follow) (h : t.Spells r c) (ht : p.Has (.type t))
    (hs : s.Underway p bindings) : Delivers (t.resolve bindings follow) s := by
  induction c using Nat.strong_induction_on generalizing t s with
  | h c ih =>
    rcases h.cases with ⟨mark, type, rfl, -⟩ | ⟨mark, u, e, rfl, -, hlt, hu⟩ |
      ⟨mark, mark', u, e, length, rfl, -, hpos, hvoid, hlt, hu⟩ | ⟨mark, components, fields, rfl, -, hnodup, hfields⟩
    · exact .ofTypeOnce trivial
    · have hhas : p.Has (.type u) := ht.part (k := 0) (mem_singleton_self _)
      exact .ofTypeOnce ((ih e hlt hu hhas hs).bind (hresolved _ hhas s hs.sound) fun _ _ _ => trivial)
    · have hhas : p.Has (.type u) := ht.part (k := 0) (mem_cons_of_mem _ (mem_singleton_self _))
      refine .ofTypeOnce ((ih e hlt hu hhas hs).bind (hresolved _ hhas s hs.sound) ?_)
      rintro a s₁ ⟨hfinds, -, hnoted⟩
      have hnot := hu.not_void hvoid (hs.finds hfinds) hhas hnoted
      rw [Delivers, yields_bind, yields_registry, if_neg (by simp [hnot]), yields_bind, yields_lift]
      dsimp only [Expr.constant]
      rw [if_neg (by omega)]
      trivial
    · have hhas : ∀ d ∈ components, p.Has (.decl d) := fun d hd => ht.part (k := 0) (mem_map.mpr ⟨d, hd, rfl⟩)
      have hcomponents : Delivers (Decl.resolveFields bindings follow [] components) s := by
        refine delivers_resolveFields (r := r) hresolved (hfields.imp ?_) hhas hnodup (by simp) hs
        rintro d f ⟨mark, u, rfl, hvoid, hlt, hu⟩
        exact ⟨mark, u, rfl, hvoid, hu, fun s hhas => ih f.2 hlt hu hhas⟩
      exact .ofTypeOnce (yields_bind.mpr (hcomponents.mono fun _ _ _ => trivial))

end TypeExpr.Spells

/-- A node of a program that declares variables of plain types. -/
def Node.Spelled (r : Registry) : Node → Prop
  | .type t => ∃ c, t.Spells r c
  | .decl d => ∃ mark role name t c, d = .typed mark role name t ∧ (role = .variable ∨ role = .component) ∧
      r.get c ≠ .void ∧ t.Spells r c
  | .expr e => ∃ mark value, e = .lit mark value
  | .stmt _ => False

theorem Node.Spelled.part {n : Node} (h : n.Spelled r) {k : Nat} {q : Nat × Node} (hq : q ∈ n.parts true k) :
    q.2.Spelled r := by
  cases n with
  | stmt => exact h.elim
  | expr e =>
    obtain ⟨mark, value, rfl⟩ := h
    cases hq
  | decl d =>
    obtain ⟨mark, role, name, t, c, rfl, -, -, ht⟩ := h
    obtain rfl := mem_singleton.mp hq
    exact ⟨c, ht⟩
  | type t =>
    obtain ⟨c, ht⟩ := h
    rcases ht.cases with ⟨mark, type, rfl, -⟩ | ⟨mark, u, e, rfl, -, -, hu⟩ |
      ⟨mark, mark', u, e, length, rfl, -, -, -, -, hu⟩ | ⟨mark, components, fields, rfl, -, -, hfields⟩
    · cases hq
    · obtain rfl := mem_singleton.mp hq
      exact ⟨e, hu⟩
    · obtain rfl | hq := mem_cons.mp hq
      · exact ⟨mark', _, rfl⟩
      · obtain rfl := mem_singleton.mp hq
        exact ⟨e, hu⟩
    · obtain ⟨d, hd, rfl⟩ := mem_map.mp hq
      obtain ⟨f, -, mark, u, rfl, hvoid, -, hu⟩ := exists_right_of_forall₂ hfields hd
      exact ⟨mark, .component, f.1, u, f.2, rfl, .inr rfl, hvoid, hu⟩

/-- The program declares variables of plain types, spelled out. -/
structure Program.Spelled (r : Registry) (p : Program) : Prop where
  formed : p.Formed
  node : ∀ {n : Node}, p.Has n → n.Spelled r

namespace Program.Spelled

theorem of_decls (hp : p.Formed) (h : ∀ d ∈ p.decls, (Node.decl d).Spelled r) : p.Spelled r where
  formed := hp
  node := by
    rintro n ⟨k, hk⟩
    exact Program.levels_induct (P := fun _ n => n.Spelled r) h (fun _ _ _ hn _ hq => hn.part hq) hk

variable (h : p.Spelled r)
include h

theorem isType_eq_false {d : Decl} (hd : p.Has (.decl d)) : d.isType = false := by
  obtain ⟨mark, role, name, t, c, rfl, rfl | rfl, -⟩ := h.node hd <;> rfl

theorem use?_eq_none {n : Node} (hn : p.Has n) : n.opensScope = false ∧ n.use? = none := by
  have hspelled := h.node hn
  cases n with
  | stmt => exact hspelled.elim
  | expr e =>
    obtain ⟨mark, value, rfl⟩ := hspelled
    exact ⟨rfl, rfl⟩
  | decl d =>
    obtain ⟨mark, role, name, t, c, rfl, -⟩ := hspelled
    exact ⟨rfl, rfl⟩
  | type t =>
    obtain ⟨c, ht⟩ := hspelled
    rcases ht.cases with ⟨_, _, rfl, -⟩ | ⟨_, _, _, rfl, -⟩ | ⟨_, _, _, _, _, rfl, -⟩ | ⟨_, _, _, rfl, -⟩ <;>
      exact ⟨rfl, rfl⟩

theorem bindsUses (b : Bindings) : p.BindsUses b := fun n hn name category huse => by
  simp [(h.use?_eq_none hn).2] at huse

theorem exists_bind (hnames : (p.decls.map Decl.name).Nodup) : ∃ b, p.bind = .ok b := by
  have hnode : ∀ q ∈ p.situated, q.2.opensScope = false ∧ q.2.use? = none := fun q hq =>
    h.use?_eq_none (Program.enter_mem_walk.mp (mem_entered.mp (p.map_snd_situated ▸ mem_map_of_mem hq)))
  refine Program.exists_bind_iff.mpr
    ⟨hnames, fun q hq => ?_, fun q hq name category huse => ?_, fun q hq name category huse => ?_⟩
  · exact Node.declaresOnce_of_not_opensScope (hnode q hq).1
  · simp [(hnode q hq).2] at huse
  · simp [(hnode q hq).2] at huse

theorem resolved {n : Node} (hn : p.Has n) : n.Resolved p bindings follow :=
  Node.resolved h.formed (h.bindsUses bindings) (fun d hd htype => by simp [h.isType_eq_false hd] at htype) hn

theorem delivers_enterNames : Delivers p.enterNames s := by
  refine (yields_forM_checks (C := fun _ => True) fun d hd => ?_).mono fun _ _ _ => trivial
  obtain ⟨mark, role, name, t, c, rfl, rfl | rfl, -⟩ := h.node (Program.mem_allDecls.mp hd) <;> exact ⟨rfl, trivial⟩

theorem delivers_resolveAll (hs : s.Underway p bindings) : Delivers (p.resolveAll bindings) s := by
  refine (yields_forM_each (I := fun s => s.Underway p bindings) (R := fun _ _ => True) (C := fun _ _ => True)
    (fun _ => trivial) (fun _ _ _ _ _ => trivial) (fun _ _ _ _ _ => trivial) (fun v hv s hs => ?_) hs).mono
    fun _ _ _ => trivial
  cases v with
  | leave => exact ⟨hs, trivial, trivial⟩
  | enter n =>
    have hn : p.Has n := Program.enter_mem_walk.mp hv
    cases n with
    | stmt | expr => exact ⟨hs, trivial, trivial⟩
    | decl d =>
      obtain ⟨mark, role, name, t, c, rfl, hrole, hvoid, ht⟩ := h.node hn
      have hhas : p.Has (.type t) := hn.part (k := 0) (mem_singleton_self _)
      have hdelivers : Delivers ((Decl.typed mark role name t).resolve bindings (p.typeOf bindings)) s :=
        ht.delivers_storage (by rcases hrole with rfl | rfl <;> simp) hn hvoid (h.resolved hhas) hs
          (ht.delivers (fun _ => h.resolved) hhas hs)
      refine yields_bind.mpr (((h.resolved hn (h.isType_eq_false hn) s hs.sound).and_delivers hdelivers).mono ?_)
      rintro a s₁ ⟨hfinds, -⟩
      exact ⟨hs.finds hfinds, trivial, trivial⟩
    | type t =>
      obtain ⟨c, ht⟩ := h.node hn
      refine yields_bind.mpr (((h.resolved hn s hs.sound).and_delivers
        (ht.delivers (fun _ => h.resolved) hn hs)).mono ?_)
      rintro a s₁ ⟨hfinds, -⟩
      exact ⟨hs.finds hfinds, trivial, trivial⟩

theorem ne_named (hs : s.Written p bindings) (i : TypeId) (name : String) (d : Option TypeId) :
    s.typing.registry.get i ≠ .named name d := by
  intro hget
  obtain ⟨e, he, htype, -⟩ := (hs.lists i).named name d hget
  simp [h.isType_eq_false he] at htype

theorem circle?_eq_none (hs : s.Written p bindings) : s.typing.registry.circle? = none := by
  have hnone : (List.range s.typing.registry.size).filter s.typing.registry.isNamed = [] := by
    refine filter_eq_nil_iff.mpr fun i _ hnamed => ?_
    unfold Registry.isNamed at hnamed
    split at hnamed
    · next hget => exact h.ne_named hs i _ _ hget
    · cases hnamed
  rw [Registry.circle?, hnone, Registry.firstCircle]

/-- The bytes of every array and record are those of the type that is spelled out. -/
theorem exists_bytes (hs : s.Written p bindings) (hbytes : ∀ c, ∃ b, r.bytes? c = some b) (i : TypeId) :
    ∃ b, s.typing.registry.bytes? i = some b := by
  cases hform : (s.typing.registry.form i).isComposite with
  | false => exact Registry.exists_bytes_of_form hform
  | true =>
    rw [Registry.form_of_rest (Registry.next?_eq_none.mpr fun name d => h.ne_named hs i name _)] at hform
    obtain ⟨t, ht, -, hnoted⟩ := (hs.lists i).composite hform
    obtain ⟨c, hspells⟩ := h.node ht
    obtain ⟨b, hb⟩ := hbytes c
    have hlt : i < s.typing.registry.size + 1 := Nat.lt_succ_of_lt (hs.sound.types _ i hnoted)
    have hagrees := (hs.agrees ht hspells hnoted (Nat.lt_add_of_pos_left (Nat.succ_pos r.size)) hlt).2.2
    exact ⟨b, hagrees.trans (Registry.bytesTo_of_le hb (Nat.le_add_right _ _))⟩

theorem delivers_resolveTypes (hbytes : ∀ c, ∃ b, r.bytes? c = some b) : Delivers (p.resolveTypes bindings) {} := by
  refine h.delivers_enterNames.bind (yields_enterNames bindings h.formed.numbered) ?_
  rintro _ s₀ ⟨hs₀, hgrows₀, hlists₀⟩
  refine (h.delivers_resolveAll ⟨hs₀.sound, hgrows₀⟩).bind
    (yields_resolveAll h.formed (h.bindsUses bindings) hs₀.sound) fun _ s hwalks => ?_
  have hs := hwalks.written hs₀ hgrows₀ hlists₀
  have hcircles : Yields checkCircles s (fun _ s' => s' = s) fun _ => False := by
    rw [checkCircles, yields_bind, yields_get, h.circle?_eq_none hs]
    rfl
  refine yields_bind.mpr (hcircles.mono ?_)
  rintro _ _ rfl
  rw [checkBytes, yields_bind, yields_get]
  refine (yields_forM_checks (C := fun _ => True) fun c _ => ?_).mono fun _ _ _ => trivial
  obtain ⟨b, hb⟩ := h.exists_bytes hs hbytes c.1
  simp only [hb, Option.isNone_some, Bool.false_eq_true, if_false]
  exact ⟨rfl, trivial⟩

theorem yields_checkTypes : Yields (p.checkTypes bindings) s (fun _ s' => s' = s) fun _ => False := by
  have hbodies : Yields (Decl.checkBodies bindings (p.typeOf bindings) p.decls) s (fun _ s' => s' = s)
      fun _ => False := by
    rw [Decl.checkBodies_eq]
    refine (yields_forM_checks (C := fun _ => True) fun d hd => ?_).mono fun _ _ h => h.1
    obtain ⟨mark, role, name, t, c, rfl, -⟩ := h.node ⟨0, Program.mem_levels_decl hd⟩
    exact ⟨rfl, trivial⟩
  refine yields_bind.mpr (hbodies.mono ?_)
  rintro _ _ rfl
  refine (yields_forM_checks (C := fun _ => True) fun d hd => ?_).mono fun _ _ h => h.1
  obtain ⟨mark, role, name, t, c, rfl, hrole, -⟩ := h.node (Program.mem_allDecls.mp hd)
  rw [Decl.checkSignature, yields_bind, yields_get]
  rcases hrole with rfl | rfl <;> split <;> exact ⟨rfl, trivial⟩

theorem exists_typing (bindings : Bindings) (hbytes : ∀ c, ∃ b, r.bytes? c = some b) :
    ∃ s : Typer, s.Written p bindings ∧ p.typing bindings = .ok s.typing := by
  have hresolved : Yields (p.resolveTypes bindings) {} (fun _ s => s.Resolved p bindings) SemanticFault.Static :=
    yields_resolveTypes h.formed (h.bindsUses bindings)
  have htypes : Yields (do p.resolveTypes bindings; p.checkTypes bindings) {} (fun _ s => s.Written p bindings)
      fun _ => False := by
    refine yields_bind.mpr ((hresolved.and_delivers (h.delivers_resolveTypes hbytes)).mono fun _ s hs => ?_)
    refine h.yields_checkTypes.mono ?_
    rintro _ _ rfl
    exact hs.toWritten
  obtain ⟨_, s, hrun⟩ := Delivers.exists_run (htypes.mono fun _ _ _ => trivial)
  exact ⟨s, htypes.of_run hrun, bind_eq_ok.mpr ⟨_, hrun, rfl⟩⟩

end Program.Spelled

end

end MmixCompiler
