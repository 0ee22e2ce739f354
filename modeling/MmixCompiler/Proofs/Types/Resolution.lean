import Mathlib.Tactic.IntervalCases
import MmixCompiler.Proofs.Scope.Visibility

/-! Resolving the types that a program writes down, in the order of a walk. -/

namespace MmixCompiler

open Infer Typer

variable {n : Node} {id : NodeId} {d : Decl}

section
variable {p : Program} {own : NodeId → Prop} {s s' : Typer}

/-- The numbers that resolving a node may write to: those of the nodes below it, and of type
declarations. -/
def Program.Reach (p : Program) (n : Node) (id : NodeId) : Prop :=
  (∃ m ∈ n.nodes, m.id = id) ∨ ∃ d, p.Has (.decl d) ∧ d.isType ∧ d.id = id

/-- The numbers that resolving a declaration may write to. -/
def Program.Writes (p : Program) (d : Decl) (id : NodeId) : Prop := id = d.id ∨ p.Reach (.type d.type) id

/-- The numbers below a node, and of type declarations. -/
def Program.Below (p : Program) (n : Node) (id : NodeId) : Prop :=
  (∃ q ∈ n.parts true 0, ∃ m ∈ q.2.nodes, m.id = id) ∨ ∃ d, p.Has (.decl d) ∧ d.isType ∧ d.id = id

theorem Program.Below.reach (h : p.Below n id) : p.Reach n id := by
  refine h.imp_left ?_
  rintro ⟨q, hq, m, hm, rfl⟩
  exact ⟨m, Node.nodes_subset_of_parts hq hm, rfl⟩

theorem Program.reach_self (n : Node) : p.Reach n n.id := .inl ⟨n, n.mem_nodes_self, rfl⟩

theorem Program.Reach.below {k : Nat} {m : Node} (h : p.Reach m id) (hm : (k, m) ∈ n.parts true 0) : p.Below n id := by
  refine h.imp_left ?_
  rintro ⟨r, hr, rfl⟩
  exact ⟨_, hm, r, hr, rfl⟩

theorem Program.Writes.reach (h : p.Writes d id) : p.Reach (.decl d) id := by
  rcases h with rfl | h
  · exact reach_self (.decl d)
  · exact (h.below (Node.type_mem_parts d 0)).reach

theorem Program.not_below_self (hp : p.Numbered) (hn : p.Has n)
    (htype : ∀ d, n = .decl d → d.isType = false) : ¬ p.Below n n.id := by
  rintro (⟨q, hq, m, hm, heq⟩ | ⟨d, hd, hdtype, heq⟩)
  · exact hp.id_ne_of_parts hn hq hm heq
  · have hdn : Node.decl d = n := hp.eq_of_id hd hn heq
    simp [htype d hdn.symm] at hdtype

theorem Word.local_of_constant {position : Position} {n : Int} {err : SemanticError}
    (h : Word.constant position n = .error err) : err.fault.Local := by
  unfold Word.constant at h
  split at h
  · cases h
  · cases h
    trivial

theorem Expr.local_of_constant {e : Expr} {err : SemanticError} (h : e.constant = .error err) : err.fault.Local := by
  fun_induction Expr.constant e generalizing err with
  | case1 => cases h
  | case2 _ _ ih => exact ih h
  | case3 mark operand ih =>
    rcases bind_eq_error.mp h with h | ⟨n, -, h⟩
    · exact ih h
    · exact Word.local_of_constant h
  | case4 mark op lhs rhs harith ihl ihr =>
    rcases bind_eq_error.mp h with h | ⟨x, -, h⟩
    · exact ihl h
    rcases bind_eq_error.mp h with h | ⟨y, -, h⟩
    · exact ihr h
    split at h
    · cases h
      trivial
    · rcases bind_eq_error.mp h with h | ⟨_, -, h⟩
      · exact Word.local_of_constant h
      · cases h
  | _ =>
    cases h
    trivial

theorem Decl.HasRole.isType_eq_false {role : Role} (h : d.HasRole role) (hrole : role ≠ .type) : d.isType = false := by
  cases d with
  | typed mark own name type =>
    obtain rfl : own = role := h
    cases own with
    | type => exact absurd rfl hrole
    | _ => rfl
  | proto | function => rfl

variable {bindings : Bindings} {follow : Decl → Infer TypeId}

/-- What resolving a node yields: a type that is noted for it. Unless the node is a function, the type
needs storage, as far as is known. -/
def Node.Resolved (p : Program) (bindings : Bindings) (follow : Decl → Infer TypeId) : Node → Prop
  | .type t => ∀ s, s.Sound p → Yields (t.resolve bindings follow) s
      (fun a s' => s.Finds p bindings (p.Reach (.type t)) a s' ∧ s.Lists p none s' ∧
        s'.typing.typeTypes[t.id]? = some a)
      SemanticFault.Local
  | .decl d => d.isType = false → ∀ s, s.Sound p → Yields (d.resolve bindings follow) s
      (fun a s' => s.Finds p bindings (p.Writes d) a s' ∧ s.Lists p none s' ∧
        s'.typing.declTypes[d.id]? = some a ∧ (d.signature? = none → s'.typing.registry.isVoid a = false))
      SemanticFault.Local
  | _ => True

theorem yields_resolveFields {ds : List Decl} (hds : ∀ d ∈ ds, (Node.decl d).Resolved p bindings follow)
    (htype : ∀ d ∈ ds, d.isType = false) (hown : ∀ d ∈ ds, ∀ id, p.Writes d id → own id)
    (names : List String) (hs : s.Sound p) :
    Yields (Decl.resolveFields bindings follow names ds) s
      (fun fields s' => s.Finds p bindings own Registry.int s' ∧ s.Lists p none s' ∧
        (∀ f ∈ fields, f.2 < s'.typing.registry.size ∧ f.1 ∉ names) ∧ (fields.map Prod.fst).Nodup ∧
        List.Forall₂ (fun d f => d.name = f.1 ∧ s'.typing.declTypes[Decl.id d]? = some f.2) ds fields)
      SemanticFault.Local := by
  have hint : ∀ {s : Typer}, s.Sound p → Registry.int < s.typing.registry.size := fun hs =>
    Nat.lt_of_lt_of_le (by decide) hs.base
  induction ds generalizing names s with
  | nil =>
    rw [Decl.resolveFields, yields_pure]
    exact ⟨.refl hs (hint hs), .of_size_le (Nat.le_refl _), by simp, List.nodup_nil, .nil⟩
  | cons d ds ih =>
    rw [Decl.resolveFields]
    split
    · trivial
    next hname =>
    apply (hds d List.mem_cons_self (htype d List.mem_cons_self) s hs).bind
    rintro a s₁ ⟨h, hlists, hnoted, _⟩
    apply (ih (fun d hd => hds d (List.mem_cons_of_mem _ hd)) (fun d hd => htype d (List.mem_cons_of_mem _ hd))
      (fun d hd => hown d (List.mem_cons_of_mem _ hd)) (d.name :: names) h.sound).bind
    rintro fields s₂ ⟨h', hlists', hfields, hnodup, hcomponents⟩
    rw [yields_pure]
    refine ⟨(h.mono (hown d List.mem_cons_self)).trans h', hlists.trans hlists' h'.grows,
      List.forall_mem_cons.mpr ⟨⟨?_, hname⟩, fun f hf => ?_⟩, List.nodup_cons.mpr ⟨?_, hnodup⟩,
      .cons ⟨rfl, h'.grows.decls _ a hnoted⟩ hcomponents⟩
    · exact Nat.lt_of_lt_of_le h.valid h'.grows.registry.size
    · exact ⟨(hfields f hf).1, fun hmem => (hfields f hf).2 (List.mem_cons_of_mem _ hmem)⟩
    · rw [List.mem_map]
      rintro ⟨f, hf, heq⟩
      exact (hfields f hf).2 (heq ▸ List.mem_cons_self)

theorem Node.resolved (hp : p.Formed) (hbound : p.BindsUses bindings)
    (hfollow : ∀ d, p.Has (.decl d) → d.isType → ∀ own s, own d.id → s.Sound p →
      Yields (follow d) s (fun a s' => s.Finds p bindings own a s' ∧ s.Lists p none s' ∧
        s'.typing.declTypes[d.id]? = some a) SemanticFault.Local)
    (hn : p.Has n) : n.Resolved p bindings follow := by
  induction (0 : Nat), n using Node.induct with
  | h k n ih =>
    have hpart : ∀ q ∈ n.parts true k, q.2.Resolved p bindings follow := fun q hq => ih q hq (hn.part hq)
    cases n with
    | stmt | expr => trivial
    | type t =>
      intro s hs
      have hnew : ¬ p.Below (.type t) t.id := Program.not_below_self hp.numbered hn (by simp)
      cases t with
      | atom mark type =>
        refine yields_ofTypeOnce hp.numbered hs hn ?_ (fun _ h => h.reach) (Program.reach_self _) hnew
        refine ⟨.refl hs (Nat.lt_of_lt_of_le ?_ hs.base), .of_size_le (Nat.le_refl _), rfl, by simp⟩
        cases type <;> decide
      | named mark name =>
        refine yields_ofTypeOnce hp.numbered hs hn ?_ (fun _ h => h.reach) (Program.reach_self _) hnew
        rw [yields_bind, binding]
        split
        · next d hd =>
          obtain ⟨hhas, htype⟩ := hbound.type hn hd
          simp only [yields_pure, yields_bind, yields_get]
          split
          · next t ht => exact ⟨.refl hs (hs.decls _ t ht), .of_size_le (Nat.le_refl _), ⟨d, hd, ht⟩, by simp⟩
          · exact (hfollow d hhas htype _ s (.inr ⟨d, hhas, htype, rfl⟩) hs).mono
              fun _ _ h => ⟨h.1, h.2.1.open_, ⟨d, hd, h.2.2⟩, by simp⟩
        · trivial
      | ptr mark target =>
        refine yields_ofTypeOnce hp.numbered hs hn ?_ (fun _ h => h.reach) (Program.reach_self _) hnew
        have hmem : (k, .type target) ∈ (Node.type (.ptr mark target)).parts true k := List.mem_singleton_self _
        apply (hpart _ hmem s hs).bind
        rintro a s₁ ⟨h, hlists, hnoted⟩
        have hsub : s.Finds p bindings (p.Below (.type (.ptr mark target))) a s₁ :=
          h.mono fun _ hid => hid.below (List.mem_singleton_self _)
        apply (yields_ptr bindings (p.Below (.type (.ptr mark target))) h.sound h.valid).mono
        rintro _ _ ⟨h', hlists', hget, _⟩
        exact ⟨hsub.trans h', (hlists.trans hlists' h'.grows).open_, ⟨a, h'.grows.types _ a hnoted, hget⟩, by simp⟩
      | arr mark length element =>
        refine yields_ofTypeOnce hp.numbered hs hn ?_ (fun _ h => h.reach) (Program.reach_self _) hnew
        have hmem : ∀ k, (k, .type element) ∈ (Node.type (.arr mark length element)).parts true k := fun k => by
          simp [Node.parts]
        apply (hpart _ (hmem k) s hs).bind
        rintro a s₁ ⟨h, hlists, hnoted⟩
        have hsub : s.Finds p bindings (p.Below (.type (.arr mark length element))) a s₁ :=
          h.mono fun _ hid => hid.below (hmem 0)
        rw [yields_bind, yields_registry]
        split
        · trivial
        next hvoid =>
        rw [yields_bind, yields_lift]
        cases hlength : length.constant with
        | error e => exact Expr.local_of_constant hlength
        | ok n =>
          dsimp only
          split
          · trivial
          next hpositive =>
          have hsolid : (Ty.arr n a).Solid := Int.not_le.mp hpositive
          refine (yields_composite bindings (p.Below (.type (.arr mark length element))) h.sound ?_ hsolid).mono ?_
          · simpa [Ty.targets] using h.valid
          · rintro b s₂ ⟨h', hlists', hget⟩
            refine ⟨hsub.trans h', hlists.trans hlists' h'.grows,
              ⟨n, a, hlength, h'.grows.types _ a hnoted, hget⟩, fun _ _ _ _ => ?_⟩
            exact ⟨n, a, s₁.typing.registry, hget, h.widens, h'.grows.registry, h.sound.closed, h.valid,
              by simpa using hvoid⟩
      | record mark components =>
        refine yields_ofTypeOnce hp.numbered hs hn ?_ (fun _ h => h.reach) (Program.reach_self _) hnew
        have hmem : ∀ k, ∀ d ∈ components,
            (k, .decl d) ∈ (Node.type (.record mark components)).parts true k := fun k d hd =>
          List.mem_map.mpr ⟨d, hd, rfl⟩
        obtain ⟨j, hj⟩ := hn
        obtain ⟨hne, hroles⟩ : components ≠ [] ∧ ∀ d ∈ components, d.HasRole .component := hp.formed _ hj
        have htypes : ∀ d ∈ components, d.isType = false := fun d hd => (hroles d hd).isType_eq_false (by simp)
        apply (yields_resolveFields (fun d hd => hpart _ (hmem k d hd)) htypes
          (fun d hd _ hid => hid.reach.below (hmem 0 d hd)) [] hs).bind
        rintro fields s₁ ⟨h, hlists, hfields, hnodup, hcomponents⟩
        have hsolid : (Ty.record fields).Solid := by
          refine ⟨?_, hnodup⟩
          rintro rfl
          cases hcomponents
          exact hne rfl
        refine (yields_composite bindings (p.Below (.type (.record mark components))) h.sound ?_ hsolid).mono ?_
        · simpa [Ty.targets] using fun t _ hf => (hfields _ hf).1
        · rintro _ _ ⟨h', hlists', hget⟩
          refine ⟨h.trans h', hlists.trans hlists' h'.grows, ⟨fields, hget, ?_⟩, by simp⟩
          apply hcomponents.imp
          rintro d f ⟨hname, hf⟩
          exact ⟨hname, h'.grows.decls _ f.2 hf⟩
    | decl d =>
      intro htype s hs
      have hmem := Node.type_mem_parts d
      have hnew : ¬ p.Reach (.type d.type) d.id := fun h =>
        Program.not_below_self hp.numbered hn (by simpa using htype) (h.below (hmem 0))
      have honce : Yields (ofDeclOnce d.id (d.type.resolve bindings follow)) s
          (fun a s' => s.Finds p bindings (p.Writes d) a s' ∧ s.Lists p none s' ∧
            s'.typing.declTypes[d.id]? = some a) SemanticFault.Local := by
        refine yields_ofDeclOnce hp.numbered hs hn ?_ (fun _ h => .inr h) (.inl rfl) hnew
        apply (hpart _ (hmem k) s hs).mono
        rintro a s₁ ⟨h, hlists, hnoted⟩
        refine ⟨h, hlists.open_, ?_, fun _ => hnoted⟩
        simp [htype]
      cases d with
      | typed mark role name type =>
        have hresolve : (Decl.typed mark role name type).resolve bindings follow =
            storage mark.position name (ofDeclOnce mark.id (type.resolve bindings follow)) := by
          cases role with
          | type => cases htype
          | _ => rfl
        rw [hresolve, storage]
        apply honce.bind
        rintro a s₁ ⟨h, hlists, hnoted⟩
        rw [yields_bind, yields_registry]
        split
        · trivial
        · next hvoid => exact ⟨h, hlists, hnoted, fun _ => by simpa using hvoid⟩
      | proto | function =>
        apply honce.mono
        rintro a s₁ ⟨h, hlists, hnoted⟩
        exact ⟨h, hlists, hnoted, by simp [Decl.signature?]⟩

/-- The numbers that a visit of a node may write to. -/
def Program.Own (p : Program) : Node → NodeId → Prop
  | .decl d => p.Writes d
  | .type t => p.Reach (.type t)
  | _ => fun _ => False

/-- What a visit of a node in the walk does. Only a type declaration changes a type that was there: its
own, which is defined then. -/
structure Typer.Visits (p : Program) (bindings : Bindings) (n : Node) (s s' : Typer) : Prop where
  grows : s.Grows p bindings (p.Own n) s'
  lists : s.Lists p none s'
  sound : s'.Sound p
  kept : ∀ i < s.typing.registry.size, s'.typing.registry.get i = s.typing.registry.get i ∨
    ∃ d, n = .decl d ∧ d.isType ∧ s'.typing.declTypes[d.id]? = some i
  arrays : ∀ mark length element, p.Has (.type (.arr mark length element)) →
    s.typing.typeTypes[mark.id]? = none → ∀ a, s'.typing.typeTypes[mark.id]? = some a →
    EnteredArray s.typing.registry s'.typing.registry a
  type : ∀ t, n = .type t → s'.typing.typeTypes[t.id]?.isSome
  decl : ∀ d, n = .decl d → ∃ a, s'.typing.declTypes[d.id]? = some a ∧
    if d.isType then ∃ definition, s'.typing.registry.get a = .named d.name (some definition) ∧
      s'.typing.typeTypes[d.type.id]? = some definition
    else d.signature? = none → s'.typing.registry.isVoid a = false

theorem yields_resolve_type (hp : p.Formed) (hd : p.Has (.decl d)) (htype : d.isType)
    (hresolved : (Node.type d.type).Resolved p bindings follow) (hs : s.Sound p) :
    Yields (d.resolve bindings follow) s (fun _ s' => s.Visits p bindings (.decl d) s') SemanticFault.Local := by
  obtain ⟨mark, name, type, rfl⟩ : ∃ mark name type, d = .typed mark .type name type := by
    unfold Decl.isType at htype
    split at htype
    · exact ⟨_, _, _, rfl⟩
    · cases htype
  have hown : ∀ id, p.Reach (.type type) id → p.Writes (.typed mark .type name type) id := fun _ => .inr
  rw [Decl.resolve, yields_bind]
  have hself : p.Writes (.typed mark .type name type) mark.id := .inl rfl
  apply (yields_named bindings _ hp.numbered hs hd htype hself).mono
  rintro a s₁ ⟨h₁, hlists₁, hnoted⟩
  apply (hresolved s₁ h₁.sound).bind
  rintro b s₂ ⟨h₂, hlists₂, hb⟩
  have h : s.Finds p bindings (p.Writes (.typed mark .type name type)) b s₂ := h₁.trans (h₂.mono hown)
  have hlists : s.Lists p none s₂ := hlists₁.trans hlists₂ h₂.grows
  have hnoted₂ : s₂.typing.declTypes[mark.id]? = some a := h₂.grows.decls _ a hnoted
  obtain ⟨old, hname, -⟩ := h.sound.names _ hd htype a hnoted₂
  simp only [Infer.define, yields_bind, yields_modify, yields_pure]
  have hdefined := Registry.get_define_self (d := b) hname
  have hkept : ∀ i, i ≠ a → (s₂.typing.registry.define a b).get i = s₂.typing.registry.get i := fun i =>
    Registry.get_define_of_ne
  have hcomposite : ∀ i, ((s₂.typing.registry.define a b).get i).isComposite →
      (s₂.typing.registry.get i).isComposite := fun i hi => by
    by_cases heq : i = a
    · simp [heq, hdefined, Ty.isComposite] at hi
    · rwa [hkept i heq] at hi
  have haccounts : ∀ i, s₂.Accounts p i → Accounts p
      { s₂ with typing := { s₂.typing with registry := s₂.typing.registry.define a b } } i := by
    rintro i ⟨hi, hnamed⟩
    refine ⟨fun h => hi (hcomposite i h), fun name d hget => ?_⟩
    by_cases heq : i = a
    · subst heq
      exact ⟨_, hd, htype, hnoted₂⟩
    · exact hnamed name d ((hkept i heq).symm.trans hget)
  refine ⟨{ h.grows with
      registry := h.grows.registry.trans (.define _ a b)
      denotes := fun t ht hnone c hc =>
        (h.grows.denotes t ht hnone c hc).mono (.define _ a b) (fun _ _ h => h) fun _ _ h => h
      noted := fun i hle hi => h.grows.noted i hle (hcomposite i hi) },
    fun i hle => (hlists i hle).imp_right (haccounts i),
    { h.sound with
      base := by simpa using h.sound.base
      atoms := fun i hi => ?_
      closed := h.sound.closed.define h.valid
      solid := fun i => ?_
      before := fun i hi => ?_
      decls := by simpa using h.sound.decls
      types := by simpa using h.sound.types
      names := fun e he hetype t ht => ?_ },
    fun i hi => ?_, fun mark length element ht hnone c hc => ?_, by simp, ?_⟩
  · have hne : i ≠ a := by
      rintro rfl
      have hatom := h.sound.atoms i hi
      rw [hname] at hatom
      interval_cases i <;> cases hatom
    exact (hkept i hne).trans (h.sound.atoms i hi)
  · by_cases heq : i = a
    · simp [heq, hdefined, Ty.Solid]
    · rw [hkept i heq]
      exact h.sound.solid i
  · by_cases heq : i = a
    · subst heq
      exact absurd hdefined (hi _ _)
    · rw [hkept i heq] at hi ⊢
      exact h.sound.before i hi
  · obtain ⟨definition, hget, hdefinition⟩ := h.sound.names e he hetype t ht
    by_cases heq : t = a
    · subst heq
      cases h.sound.single _ e hd he htype hetype t hnoted₂ ht
      exact ⟨_, hdefined, fun c hc => Option.some.inj hc ▸ hb⟩
    · exact ⟨definition, (hkept t heq).trans hget, hdefinition⟩
  · by_cases heq : i = a
    · subst heq
      exact .inr ⟨_, rfl, rfl, hnoted₂⟩
    · exact .inl ((hkept i heq).trans (h.widens.get i hi))
  · exact (h.arrays mark length element ht hnone c hc).mono (.refl _) (.define _ a b)
  · rintro _ ⟨⟩
    exact ⟨a, hnoted₂, b, hdefined, hb⟩

theorem yields_visit (hp : p.Formed) (hresolved : ∀ n, p.Has n → n.Resolved p bindings follow)
    (hd : p.Has (.decl d)) (hs : s.Sound p) :
    Yields (d.resolve bindings follow) s (fun _ s' => s.Visits p bindings (.decl d) s') SemanticFault.Local := by
  cases htype : d.isType with
  | true =>
    exact yields_resolve_type hp hd htype (hresolved _ (hd.part (Node.type_mem_parts d 0))) hs
  | false =>
    apply (hresolved _ hd htype s hs).mono
    rintro a s' ⟨h, hlists, hnoted, hvoid⟩
    refine ⟨h.grows, hlists, h.sound, fun i hi => .inl (h.widens.get i hi), h.arrays, by simp, ?_⟩
    rintro _ ⟨⟩
    refine ⟨a, hnoted, ?_⟩
    rw [htype, if_neg (by simp)]
    exact hvoid

inductive Typer.Walks (p : Program) (bindings : Bindings) : List Node → Typer → Typer → Prop where
  | nil (s : Typer) : Walks p bindings [] s s
  | cons {n : Node} {ns : List Node} {s s₁ s' : Typer} (h : s.Visits p bindings n s₁)
      (hrest : Walks p bindings ns s₁ s') :
      Walks p bindings (n :: ns) s s'

theorem yields_typeOf_type (hp : p.Numbered) (hd : p.Has (.decl d)) (htype : d.isType)
    (hs : s.Sound p) (hid : own d.id) : Yields (p.typeOf bindings d) s
      (fun a s' => s.Finds p bindings own a s' ∧ s.Lists p none s' ∧ s'.typing.declTypes[d.id]? = some a)
      SemanticFault.Local := by
  have hvia : p.typeOf bindings d = named d := by
    unfold Decl.isType at htype
    split at htype
    · rfl
    · cases htype
  rw [hvia]
  exact yields_named bindings own hp hs hd htype hid

theorem yields_resolveAll (hp : p.Formed) (hbound : p.BindsUses bindings) (hs : s.Sound p) :
    Yields (p.resolveAll bindings) s (fun _ s' => s.Walks p bindings (entered p.walk) s') SemanticFault.Local := by
  have hresolved : ∀ n, p.Has n → n.Resolved p bindings (p.typeOf bindings) := fun n =>
    Node.resolved hp hbound fun d hd htype own s hid hs => yields_typeOf_type hp.numbered hd htype hs hid
  have hhas : ∀ n, .enter n ∈ p.walk → p.Has n := fun n => Program.enter_mem_walk.mp
  unfold Program.resolveAll
  generalize p.walk = vs at hhas
  induction vs generalizing s with
  | nil => exact .nil s
  | cons v vs ih =>
    have hrest : ∀ {s₁ : Typer}, s₁.Sound p → _ := fun hs₁ => ih hs₁ fun n hn => hhas n (List.mem_cons_of_mem _ hn)
    rw [yields_forM_cons]
    cases v with
    | leave n => exact hrest hs
    | enter n =>
      have hn := hhas n List.mem_cons_self
      have hskip : (∀ t, n ≠ .type t) → (∀ d, n ≠ .decl d) → s.Visits p bindings n s := fun htype hdecl =>
        ⟨.refl s, .of_size_le (Nat.le_refl _), hs, fun _ _ => .inl rfl,
          fun _ _ _ _ hnone a ha => by simp [hnone] at ha, fun t ht => absurd ht (htype t),
          fun d hd => absurd hd (hdecl d)⟩
      cases n with
      | stmt | expr => exact (hrest hs).mono fun _ _ h => .cons (hskip (by simp) (by simp)) h
      | decl d =>
        dsimp only
        refine (yields_visit hp hresolved hn hs).bind fun _ s₁ h₁ => ?_
        exact (hrest h₁.sound).mono fun _ _ h => .cons h₁ h
      | type t =>
        dsimp only
        apply (hresolved _ hn s hs).bind
        rintro _ s₁ ⟨h₁, hlists, hnoted⟩
        have hvisit : s.Visits p bindings (.type t) s₁ := by
          refine ⟨h₁.grows, hlists, h₁.sound, fun i hi => .inl (h₁.widens.get i hi), h₁.arrays, ?_, by simp⟩
          rintro _ ⟨⟩
          simp [hnoted]
        exact (hrest h₁.sound).mono fun _ _ h => .cons hvisit h

namespace Typer.Walks

variable {ns ms : List Node}

theorem grows (h : s.Walks p bindings ns s') : s.Grows p bindings (fun _ => True) s' := by
  induction h with
  | nil => exact .refl _
  | cons h _ ih => exact (h.grows.mono fun _ _ => trivial).trans ih

theorem lists (h : s.Walks p bindings ns s') : s.Lists p none s' := by
  induction h with
  | nil => exact .of_size_le (Nat.le_refl _)
  | cons h hrest ih => exact h.lists.trans ih hrest.grows

theorem sound (h : s.Walks p bindings ns s') (hs : s.Sound p) : s'.Sound p := by
  induction h with
  | nil => exact hs
  | cons h _ ih => exact ih h.sound

theorem split (h : s.Walks p bindings (ns ++ ms) s') : ∃ s₁, s.Walks p bindings ns s₁ ∧ s₁.Walks p bindings ms s' := by
  induction ns generalizing s with
  | nil => exact ⟨s, .nil s, h⟩
  | cons n ns ih =>
    obtain _ | ⟨h, hrest⟩ := h
    obtain ⟨s₁, h₁, h₂⟩ := ih hrest
    exact ⟨s₁, .cons h h₁, h₂⟩

theorem kept (h : s.Walks p bindings ns s') {i : TypeId} (hi : i < s.typing.registry.size) :
    s'.typing.registry.get i = s.typing.registry.get i ∨
      ∃ d, .decl d ∈ ns ∧ d.isType ∧ s'.typing.declTypes[d.id]? = some i := by
  induction h with
  | nil => exact .inl rfl
  | @cons n ns s s₁ s' h hrest ih =>
    rcases ih (Nat.lt_of_lt_of_le hi h.grows.registry.size) with heq | ⟨d, hd, htype, hnoted⟩
    · rcases h.kept i hi with heq' | ⟨d, rfl, htype, hnoted⟩
      · exact .inl (heq.trans heq')
      · exact .inr ⟨d, List.mem_cons_self, htype, hrest.grows.decls _ i hnoted⟩
    · exact .inr ⟨d, List.mem_cons_of_mem _ hd, htype, hnoted⟩

theorem type (h : s.Walks p bindings ns s') {t : TypeExpr} (ht : .type t ∈ ns) :
    ∃ a, s'.typing.typeTypes[t.id]? = some a := by
  obtain ⟨before, after, rfl⟩ := List.append_of_mem ht
  obtain ⟨s₁, -, h⟩ := h.split
  obtain _ | ⟨h, hrest⟩ := h
  obtain ⟨a, ha⟩ := Option.isSome_iff_exists.mp (h.type t rfl)
  exact ⟨a, hrest.grows.types _ a ha⟩

theorem decl (h : s.Walks p bindings ns s') (hd : .decl d ∈ ns) : ∃ a, s'.typing.declTypes[d.id]? = some a ∧
      (d.isType → ∃ definition, s'.typing.registry.get a = .named d.name (some definition)) := by
  obtain ⟨before, after, rfl⟩ := List.append_of_mem hd
  obtain ⟨s₁, -, h⟩ := h.split
  obtain _ | ⟨h, hrest⟩ := h
  obtain ⟨a, ha, hresolved⟩ := h.decl d rfl
  refine ⟨a, hrest.grows.decls _ a ha, fun htype => ?_⟩
  rw [if_pos htype] at hresolved
  obtain ⟨definition, hget, -⟩ := hresolved
  rcases hrest.grows.registry.get a (h.sound.decls _ a ha) with heq | ⟨name, old, new, hold, hnew⟩
  · exact ⟨definition, heq.trans hget⟩
  · cases hget.symm.trans hold
    exact ⟨new, hnew⟩

end Typer.Walks

/-- What is known once the names are entered: every type declaration has a type, and no type expression
has one. -/
structure Typer.Entered (p : Program) (s : Typer) : Prop where
  sound : s.Sound p
  names : ∀ d, p.Has (.decl d) → d.isType → ∃ a, s.typing.declTypes[d.id]? = some a
  types : ∀ t, p.Has (.type t) → s.typing.typeTypes[t.id]? = none

/-- What is known once every node has been visited. -/
structure Typer.Written (p : Program) (bindings : Bindings) (s : Typer) : Prop where
  sound : s.Sound p
  types : ∀ t, p.Has (.type t) → ∃ a, s.typing.typeTypes[t.id]? = some a ∧
    t.Denotes bindings s.typing a
  decls : ∀ d, p.Has (.decl d) → ∃ a, s.typing.declTypes[d.id]? = some a ∧
    (d.isType → ∃ definition, s.typing.registry.get a = .named d.name (some definition))
  declared : ∀ d, p.Has (.decl d) → d.isType = false → ∀ a, s.typing.declTypes[d.id]? = some a →
    s.typing.typeTypes[d.type.id]? = some a
  lists : ∀ i, s.Accounts p i
  exprs : s.typing.exprTypes = ∅
  walk : ∃ s₀ : Typer, s₀.Entered p ∧ s₀.Walks p bindings (entered p.walk) s

/-- What is known once the types are resolved. -/
structure Typer.Resolved (p : Program) (bindings : Bindings) (s : Typer) : Prop extends s.Written p bindings where
  bytes : ∀ i, (s.typing.registry.get i).isComposite → (s.typing.registry.bytes? i).isSome
  circles : s.typing.registry.circle? = none

theorem Typer.Written.denotes (hs : s.Written p bindings) {t : TypeExpr} (ht : p.Has (.type t)) {a : TypeId}
    (ha : s.typing.typeTypes[t.id]? = some a) : t.Denotes bindings s.typing a := by
  obtain ⟨c, hc, hdenotes⟩ := hs.types t ht
  obtain rfl : c = a := Option.some.inj (hc.symm.trans ha)
  exact hdenotes

theorem Typer.Written.definition (hs : s.Written p bindings) (hd : p.Has (.decl d)) (htype : d.isType)
    {a : TypeId} (ha : s.typing.declTypes[d.id]? = some a) : ∃ definition,
      s.typing.registry.get a = .named d.name (some definition) ∧
      s.typing.typeTypes[d.type.id]? = some definition := by
  obtain ⟨c, hc, hdefined⟩ := hs.decls d hd
  obtain rfl : c = a := Option.some.inj (hc.symm.trans ha)
  obtain ⟨definition, hget⟩ := hdefined htype
  obtain ⟨_, hget', hnoted⟩ := hs.sound.names d hd htype c ha
  cases hget.symm.trans hget'
  exact ⟨definition, hget, hnoted definition rfl⟩

theorem Typer.sound_initial : Sound p {} where
  base := Nat.le_refl _
  atoms _ _ := rfl
  closed := Registry.closed_initial
  solid i := by
    rcases Nat.lt_or_ge i 4 with hi | hi
    · interval_cases i <;> trivial
    · rw [show ({} : Typer).typing.registry.get i = .void from Registry.get_of_size_le hi]
      trivial
  before i _ := by
    rcases Nat.lt_or_ge i 4 with hi | hi
    · interval_cases i <;> simp [Registry.initial, Registry.get, Ty.targets]
    · rw [show ({} : Typer).typing.registry.get i = .void from Registry.get_of_size_le hi]
      simp [Ty.targets]
  decls id t h := by simp at h
  types id t h := by simp at h
  names d _ _ t h := by simp at h
  single d _ _ _ _ _ t h := by simp at h

theorem yields_enterNames (bindings : Bindings) (hp : p.Numbered) : Yields p.enterNames {} (fun _ s' => s'.Entered p ∧
    Grows p bindings (fun _ => True) {} s' ∧ Lists p none {} s') SemanticFault.Local := by
  let Own (id : NodeId) : Prop := ∃ d, p.Has (.decl d) ∧ d.id = id
  have hloop : Yields p.enterNames {} (fun _ s' => s'.Sound p ∧ (Grows p bindings Own {} s' ∧ Lists p none {} s') ∧
      ∀ d ∈ p.allDecls, d.isType → ∃ a, s'.typing.declTypes[d.id]? = some a) SemanticFault.Local := by
    refine yields_forM_each (R := fun s s' => s.Grows p bindings Own s' ∧ s.Lists p none s')
      (fun s => ⟨.refl s, .of_size_le (Nat.le_refl _)⟩) (fun _ _ _ h h' => ⟨h.1.trans h'.1, h.2.trans h'.2 h'.1⟩)
      (fun d s₁ s₂ h h' htype => (h htype).imp fun a ha => h'.1.decls _ a ha) (fun d hd s hs => ?_) sound_initial
    have hd := Program.mem_allDecls.mp hd
    split
    · apply (yields_named bindings Own hp hs hd rfl ⟨_, hd, rfl⟩).bind
      rintro a s₁ ⟨h, hlists, hnoted⟩
      exact ⟨h.sound, ⟨h.grows, hlists⟩, fun _ => ⟨a, hnoted⟩⟩
    · next hother =>
      refine ⟨hs, ⟨.refl s, .of_size_le (Nat.le_refl _)⟩, fun htype => ?_⟩
      unfold Decl.isType at htype
      split at htype
      · exact absurd rfl (hother _ _ _)
      · cases htype
  apply hloop.mono
  rintro _ s' ⟨hs, ⟨hgrows, hlists⟩, hnames⟩
  refine ⟨⟨hs, fun d hd => hnames d (Program.mem_allDecls.mpr hd), fun t ht => ?_⟩,
    hgrows.mono fun _ _ => trivial, hlists⟩
  have hother : ¬ ∃ d, p.Has (.decl d) ∧ d.id = t.id := by
    rintro ⟨d, hd, heq⟩
    cases hp.eq_of_id hd ht heq
  rw [hgrows.otherTypes t.id hother]
  simp

theorem yields_checkCircles : Yields checkCircles s (fun _ s' => s' = s ∧ s.typing.registry.circle? = none)
    SemanticFault.Static := by
  rw [checkCircles, yields_bind, yields_get]
  split
  · next h => exact ⟨rfl, h⟩
  · trivial

theorem yields_checkBytes : Yields checkBytes s (fun _ s' => s' = s ∧
    ∀ c ∈ s.composites, (s.typing.registry.bytes? c.1).isSome) SemanticFault.Local := by
  rw [checkBytes, yields_bind, yields_get]
  apply (yields_forM_checks (C := fun c => (s.typing.registry.bytes? c.1).isSome) fun c _ => ?_).mono
  · rintro _ _ ⟨heq, h⟩
    exact ⟨heq, fun c hc => h c (List.mem_reverse.mpr hc)⟩
  · dsimp only
    split
    · trivial
    · next hsome => exact ⟨rfl, by simpa [Option.isSome_iff_ne_none] using hsome⟩

theorem Typer.Sound.le_of_isComposite (hs : s.Sound p) {i : TypeId} (hi : (s.typing.registry.get i).isComposite) :
    4 ≤ i := by
  by_contra hlt
  rw [hs.atoms i (Nat.not_le.mp hlt)] at hi
  have hnone : ∀ i < 4, (Registry.initial.get i).isComposite = false := by decide
  simp [hnone i (Nat.not_le.mp hlt)] at hi

theorem Typer.Walks.written {s₀ : Typer} (h : s₀.Walks p bindings (entered p.walk) s) (hs₀ : s₀.Entered p)
    (hgrows₀ : Grows p bindings (fun _ => True) {} s₀) (hlists₀ : Lists p none {} s₀) : s.Written p bindings := by
  have hgrows := hgrows₀.trans h.grows
  have hsound := h.sound hs₀.sound
  have hentered : ∀ {n : Node}, p.Has n → n ∈ entered p.walk := fun hn =>
    mem_entered.mpr (Program.enter_mem_walk.mpr hn)
  refine ⟨hsound, fun t ht => ?_, fun d hd => h.decl (hentered hd),
    fun d hd htype a => hgrows.declared d hd htype (by simp) a, fun i => ?_, by simpa using hgrows.exprs, s₀, hs₀, h⟩
  · obtain ⟨a, ha⟩ := h.type (hentered ht)
    exact ⟨a, ha, hgrows.denotes t ht (by simp) a ha⟩
  · rcases Nat.lt_or_ge i 4 with hi | hi
    · have hatom := hsound.atoms i hi
      refine ⟨fun hcomposite => absurd (hsound.le_of_isComposite hcomposite) (Nat.not_le.mpr hi),
        fun name d hname => ?_⟩
      rw [hname] at hatom
      interval_cases i <;> cases hatom
    · exact (hlists₀.trans h.lists h.grows i hi).resolve_left (by simp)

theorem yields_resolveTypes (hp : p.Formed) (hbound : p.BindsUses bindings) :
    Yields (p.resolveTypes bindings) {} (fun _ s' => s'.Resolved p bindings) SemanticFault.Static := by
  rw [Program.resolveTypes]
  apply ((yields_enterNames bindings hp.numbered).weaken fun _ => SemanticFault.Local.static).bind
  rintro _ s₀ ⟨hs₀, hgrows₀, hlists₀⟩
  refine ((yields_resolveAll hp hbound hs₀.sound).weaken fun _ => SemanticFault.Local.static).bind fun _ s₁ h => ?_
  apply yields_checkCircles.bind
  rintro _ s₂ ⟨heq, hcircles⟩
  subst heq
  apply (yields_checkBytes.weaken fun _ => SemanticFault.Local.static).mono
  rintro _ s₃ ⟨heq, hbytes⟩
  subst heq
  have hwritten := h.written hs₀ hgrows₀ hlists₀
  refine ⟨hwritten, fun i hi => ?_, hcircles⟩
  obtain ⟨position, hmem⟩ := (hgrows₀.trans h.grows).noted i (hwritten.sound.le_of_isComposite hi) hi
  exact hbytes _ hmem

end

end MmixCompiler
