import MmixCompiler.Proofs.Scope.Visibility
import MmixCompiler.Proofs.Types.Representation

/-! Typing the expressions of a program whose types are resolved. The tables of declarations and types are
not touched any more, and the registry only takes pointer types; every expression outside of types gets a
type, and those of elements and components fit what they are taken from. Typing follows the rules: the type
noted for an expression represents the one it has by them, and a fault is found only where none applies. -/

namespace MmixCompiler

open Infer Typer List

/-- What is noted for a node fits what is noted for its parts. -/
def Node.Typed (t : Typing) : Node → Prop
  | .expr (.index mark array _) => ∃ a e, t.exprTypes[array.id]? = some a ∧ t.registry.element? a = some e ∧
      t.exprTypes[mark.id]? = some e
  | .expr (.field mark record name) => ∃ a fields i e, t.exprTypes[record.id]? = some a ∧
      t.registry.fields? a = some fields ∧ fields.findIdx? (fun f => f.1 = name) = some i ∧
      fields[i]? = some (name, e) ∧ t.fieldIndices[mark.id]? = some i ∧ t.exprTypes[mark.id]? = some e
  | .expr (.cast mark _ target) => ∃ a, t.exprTypes[mark.id]? = some a ∧ t.typeTypes[target.id]? = some a
  | .expr e => ∃ a, t.exprTypes[e.id]? = some a
  | _ => True

/-- A node follows from the rules, and what is noted for an expression represents the type it has by them. -/
def Node.Judged (b : Bindings) (t : Typing) : Node → Prop
  | .expr e => ∃ a u, t.exprTypes[e.id]? = some a ∧ Judgement.Holds b (.value e u) ∧ t.registry.Represents b u a
  | n => n.Derivable b

/-- So it is for a node and those below it, outside of types. -/
def TypedBelow (b : Bindings) (t : Typing) (q : Nat × Node) : Prop :=
  ∀ r, Relation.ReflTransGen Node.Leads q r → r.2.Typed t ∧ r.2.Judged b t

theorem typedBelow_iff {b : Bindings} {t : Typing} {q : Nat × Node} :
    TypedBelow b t q ↔ (q.2.Typed t ∧ q.2.Judged b t) ∧ ∀ r, Node.Leads q r → TypedBelow b t r := by
  constructor
  · exact fun h => ⟨h q .refl, fun r hr u hu => h u (.head hr hu)⟩
  · rintro ⟨hq, hparts⟩ r hr
    rcases Relation.ReflTransGen.cases_head hr with rfl | ⟨u, hu, hr⟩
    · exact hq
    · exact hparts u hu r hr

/-- A fault is one of typing, and the node it is found in does not follow from the rules. -/
def Node.Refuses (b : Bindings) (n : Node) (f : SemanticFault) : Prop := f.Local ∧ ¬ n.Derivable b

namespace Typer

/-- Declarations and types have their types, which represent what the program writes down, and types of
expressions are entered. -/
structure Ready (p : Program) (b : Bindings) (s : Typer) : Prop where
  sound : s.Sound p
  types : ∀ t, p.Has (.type t) → ∃ a, s.typing.typeTypes[t.id]? = some a ∧
    s.typing.registry.Represents b (.written t) a
  decls : ∀ d, p.Has (.decl d) → ∃ a, s.typing.declTypes[d.id]? = some a ∧
    (d.isType = false → s.typing.typeTypes[d.type.id]? = some a)
  exprs : ∀ (id : NodeId) a, s.typing.exprTypes[id]? = some a → a < s.typing.registry.size

/-- What checking has added: pointer types, and entries for the numbers of `own`. -/
structure Checks (own : List NodeId) (s s' : Typer) : Prop where
  registry : s.typing.registry.Widens s'.typing.registry
  pointers : ∀ i, s.typing.registry.size ≤ i → (s'.typing.registry.get i).isComposite = false ∧
    ∀ name d, s'.typing.registry.get i ≠ .named name d
  decls : s'.typing.declTypes = s.typing.declTypes
  types : s'.typing.typeTypes = s.typing.typeTypes
  exprs : ∀ id : NodeId, id ∉ own → s'.typing.exprTypes[id]? = s.typing.exprTypes[id]?
  fields : ∀ id : NodeId, id ∉ own → s'.typing.fieldIndices[id]? = s.typing.fieldIndices[id]?

namespace Checks

variable {own own' : List NodeId} {s s' s'' : Typer}

theorem refl (s : Typer) : s.Checks own s :=
  ⟨.refl _, fun i hi => by simp [Registry.get_of_size_le hi, Ty.isComposite], rfl, rfl, fun _ _ => rfl, fun _ _ => rfl⟩

theorem mono (h : s.Checks own s') (hown : own ⊆ own') : s.Checks own' s' :=
  { h with
    exprs := fun id hid => h.exprs id fun hmem => hid (hown hmem)
    fields := fun id hid => h.fields id fun hmem => hid (hown hmem) }

theorem trans (h : s.Checks own s') (h' : s'.Checks own s'') : s.Checks own s'' where
  registry := h.registry.trans h'.registry
  pointers i hi := by
    rcases Nat.lt_or_ge i s'.typing.registry.size with hlt | hge
    · rw [h'.registry.get i hlt]
      exact h.pointers i hi
    · exact h'.pointers i hge
  decls := h'.decls.trans h.decls
  types := h'.types.trans h.types
  exprs id hid := (h'.exprs id hid).trans (h.exprs id hid)
  fields id hid := (h'.fields id hid).trans (h.fields id hid)

end Checks
end Typer

section
variable {p : Program} {b : Bindings} {own : List NodeId} {s s' s'' : Typer}

theorem Node.Typed.of_checks {n : Node} (h : n.Typed s.typing) (hs : s.Ready p b) (hc : s.Checks own s')
    (hn : ∀ m ∈ n.nodes, m.id ∉ own) : n.Typed s'.typing := by
  have hpart : ∀ m, (0, m) ∈ n.parts true 0 → m.id ∉ own := fun m hm =>
    hn m (nodes_subset_of_parts hm m.mem_nodes_self)
  have hself : n.id ∉ own := hn n n.mem_nodes_self
  have hform : ∀ {a : TypeId} {id : NodeId} {y : Ty}, s.typing.exprTypes[id]? = some a →
      s.typing.registry.form a = y → (∀ name d, y ≠ .named name d) → s'.typing.registry.form a = y :=
    fun ha => hc.registry.form_of_ne_named hs.sound.closed (hs.exprs _ _ ha)
  unfold Node.Typed at h ⊢
  split at h
  · next mark array index =>
    obtain ⟨a, e, ha, he, hmark⟩ := h
    obtain ⟨n, harr⟩ := Registry.element?_eq_some.mp he
    exact ⟨a, e, (hc.exprs _ (hpart (.expr array) (by simp [Node.parts]))).trans ha,
      Registry.element?_eq_some.mpr ⟨n, hform ha harr (by simp)⟩, (hc.exprs _ hself).trans hmark⟩
  · next mark record name =>
    obtain ⟨a, fields, i, e, ha, hfields, hi, he, hindex, hmark⟩ := h
    exact ⟨a, fields, i, e, (hc.exprs _ (hpart (.expr record) (by simp [Node.parts]))).trans ha,
      Registry.fields?_eq_some.mpr (hform ha (Registry.fields?_eq_some.mp hfields) (by simp)), hi, he,
      (hc.fields _ hself).trans hindex, (hc.exprs _ hself).trans hmark⟩
  · obtain ⟨a, ha, htype⟩ := h
    exact ⟨a, (hc.exprs _ hself).trans ha, hc.types ▸ htype⟩
  · obtain ⟨a, ha⟩ := h
    exact ⟨a, (hc.exprs _ hself).trans ha⟩
  · trivial

theorem Node.Judged.of_checks {n : Node} (h : n.Judged b s.typing) (hs : s.Ready p b) (hc : s.Checks own s')
    (hn : n.id ∉ own) : n.Judged b s'.typing := by
  cases n with
  | expr e =>
    obtain ⟨a, u, ha, hu, hrep⟩ := h
    exact ⟨a, u, (hc.exprs _ hn).trans ha, hu, hrep.widen hs.sound.closed hc.registry⟩
  | _ => exact h

theorem TypedBelow.of_checks {q : Nat × Node} (h : TypedBelow b s.typing q) (hs : s.Ready p b) (hc : s.Checks own s')
    (hq : ∀ m ∈ q.2.nodes, m.id ∉ own) : TypedBelow b s'.typing q := by
  intro r hr
  have hr' : ∀ m ∈ r.2.nodes, m.id ∉ own := fun m hm => hq m ?_
  · exact ⟨(h r hr).1.of_checks hs hc hr', (h r hr).2.of_checks hs hc (hr' _ r.2.mem_nodes_self)⟩
  clear h
  induction hr using Relation.ReflTransGen.head_induction_on with
  | refl => exact hm
  | head hstep _ ih =>
    exact Node.nodes_subset_of_parts hstep.1 (ih fun m hm => hq m (Node.nodes_subset_of_parts hstep.1 hm))

structure Typer.Covers (p : Program) (b : Bindings) (own : List NodeId) (qs : List (Nat × Node))
    (s s' : Typer) : Prop where
  checks : s.Checks own s'
  ready : s'.Ready p b
  typed : ∀ q ∈ qs, q.2.isType = false → TypedBelow b s'.typing q

namespace Typer.Covers

variable {qs rs : List (Nat × Node)} {own' : List NodeId}

theorem nil (hs : s.Ready p b) : s.Covers p b own [] s := ⟨.refl s, hs, by simp⟩

theorem judged (h : s.Covers p b own qs s') {q : Nat × Node} (hq : q ∈ qs) (htype : q.2.isType = false) :
    q.2.Judged b s'.typing := (h.typed q hq htype q .refl).2

theorem mono (h : s.Covers p b own qs s') (hown : own ⊆ own') : s.Covers p b own' qs s' :=
  ⟨h.checks.mono hown, h.ready, h.typed⟩

theorem append (h : s.Covers p b (idsOf qs) qs s') (h' : s'.Covers p b (idsOf rs) rs s'')
    (hnodup : (idsOf (qs ++ rs)).Nodup) : s.Covers p b (idsOf (qs ++ rs)) (qs ++ rs) s'' := by
  rw [idsOf_append] at hnodup ⊢
  refine ⟨(h.checks.mono (subset_append_left _ _)).trans (h'.checks.mono (subset_append_right _ _)),
    h'.ready, fun q hq htype => ?_⟩
  rcases mem_append.mp hq with hq | hq
  · refine (h.typed q hq htype).of_checks h.ready h'.checks fun m hm hmem => ?_
    have hm' : m.id ∈ idsOf qs := mem_map_of_mem (mem_flatMap.mpr ⟨q, hq, hm⟩)
    exact (nodup_append.mp hnodup).2.2 _ hm' _ hmem rfl
  · exact h'.typed q hq htype

theorem node {k : Nat} {n : Node} (h : s.Covers p b (idsOf (n.parts true k)) (n.parts true k) s')
    (hn : n.Typed s'.typing ∧ n.Judged b s'.typing) : s.Covers p b (idsOf [(k, n)]) [(k, n)] s' := by
  refine ⟨?_, h.ready, fun q hq _ => ?_⟩
  · rw [idsOf_singleton k k]
    exact h.checks.mono (subset_cons_self _ _)
  · obtain rfl := mem_singleton.mp hq
    exact typedBelow_iff.mpr ⟨hn, fun r hr => h.typed r hr.1 hr.2⟩

/-- Nothing is to be done for types, and for declarations with nothing but a type. -/
theorem idle {qs : List (Nat × Node)} (hs : s.Ready p b)
    (hqs : ∀ q ∈ qs, q.2.isType = false → ∃ mark role name type, q.2 = .decl (.typed mark role name type)) :
    s.Covers p b own qs s := by
  refine ⟨.refl s, hs, fun q hq htype => ?_⟩
  obtain ⟨mark, role, name, type, hd⟩ := hqs q hq htype
  refine typedBelow_iff.mpr ⟨hd ▸ ⟨trivial, .typed mark role name type⟩, fun r hr => ?_⟩
  obtain ⟨hmem, hr⟩ := hr
  rw [hd] at hmem
  obtain rfl := mem_singleton.mp hmem
  cases hr

theorem thenNothing (h : s.Covers p b own qs s') (h' : s'.Covers p b [] [] s'') : s.Covers p b own qs s'' :=
  ⟨h.checks.trans (h'.checks.mono (nil_subset _)), h'.ready, fun q hq htype =>
    (h.typed q hq htype).of_checks h.ready h'.checks (by simp)⟩

end Typer.Covers

variable {post : TypeId → Typer → Prop} {fault : SemanticFault → Prop}

theorem yields_ofTypeOnce_of_some {id : NodeId} {a : TypeId} {find : Infer TypeId}
    (h : s.typing.typeTypes[id]? = some a) : Yields (ofTypeOnce id find) s post fault ↔ post a s := by
  simp only [ofTypeOnce, yields_bind, yields_get, h, yields_pure]

theorem yields_ofDeclOnce_of_some {id : NodeId} {a : TypeId} {find : Infer TypeId}
    (h : s.typing.declTypes[id]? = some a) : Yields (ofDeclOnce id find) s post fault ↔ post a s := by
  simp only [ofDeclOnce, yields_bind, yields_get, h, yields_pure]

theorem Typer.Ready.yields_resolve {follow : Decl → Infer TypeId} (hs : s.Ready p b) {t : TypeExpr}
    (ht : p.Has (.type t)) (h : ∀ a, s.typing.typeTypes[t.id]? = some a →
      s.typing.registry.Represents b (.written t) a → post a s) : Yields (t.resolve b follow) s post fault := by
  obtain ⟨a, ha, hrep⟩ := hs.types t ht
  cases t with
  | _ => exact (yields_ofTypeOnce_of_some ha).mpr (h a ha hrep)

theorem Typer.Ready.yields_typeOf (hs : s.Ready p b) {d : Decl} (hd : p.Has (.decl d)) (htype : d.isType = false)
    (h : ∀ a, s.typing.registry.Represents b (.written d.type) a → post a s) :
    Yields (p.typeOf b d) s post fault := by
  obtain ⟨a, ha, hnoted⟩ := hs.decls d hd
  obtain ⟨c, hc, hrep⟩ := hs.types d.type hd.type
  obtain rfl : c = a := Option.some.inj (hc.symm.trans (hnoted htype))
  rw [Program.typeOf, Decl.typeTo]
  unfold Decl.typeVia
  split
  · exact (yields_ofDeclOnce_of_some ha).mpr (h c hrep)
  · exact (yields_ofDeclOnce_of_some ha).mpr (h c hrep)

theorem Typer.Ready.yields_ptr (hs : s.Ready p b) {u : SourceType} {target : TypeId}
    (htarget : s.typing.registry.Represents b u target) :
    Yields (Infer.ptr target) s (fun a s' => s.Covers p b [] [] s' ∧
      s'.typing.registry.Represents b (.ptr u) a) fault := by
  apply (MmixCompiler.yields_ptr b (fun _ => False) hs.sound htarget.lt).mono
  rintro a s' ⟨h, hlists, hget, heq⟩
  have hdecls : s'.typing.declTypes = s.typing.declTypes := by rw [heq]
  have htypes : s'.typing.typeTypes = s.typing.typeTypes := by rw [heq]
  have hrest : s'.typing.registry.next? a = none := by simp [Registry.next?, hget]
  have hshape : s'.typing.registry.shape? a = some (.ptr target) := by
    rw [Registry.shape?, Registry.form_of_rest hrest, hget]
    rfl
  refine ⟨⟨⟨h.widens, fun i hi => ?_, hdecls, htypes, fun id _ => by rw [h.grows.exprs],
    fun id _ => by rw [h.grows.fields]⟩, ⟨h.sound, fun t ht => ?_, ?_, fun id c hc => ?_⟩, by simp⟩, ?_⟩
  · have haccounts := (hlists i hi).resolve_left (by simp)
    constructor
    · by_contra hcomposite
      obtain ⟨t, -, -, ht⟩ := haccounts.composite (by simpa using hcomposite)
      rw [htypes] at ht
      exact absurd (hs.sound.types _ i ht) (Nat.not_lt.mpr hi)
    · intro name d hname
      obtain ⟨e, -, -, he⟩ := haccounts.named name d hname
      rw [hdecls] at he
      exact absurd (hs.sound.decls _ i he) (Nat.not_lt.mpr hi)
  · obtain ⟨c, hc, hrep⟩ := hs.types t ht
    exact ⟨c, htypes ▸ hc, hrep.widen hs.sound.closed h.widens⟩
  · rw [hdecls, htypes]
    exact hs.decls
  · rw [h.grows.exprs] at hc
    exact Nat.lt_of_lt_of_le (hs.exprs id c hc) h.grows.registry.size
  · exact .of_unfold h.valid (.ptr u) hshape (.ptr (htarget.widen hs.sound.closed h.widens))

theorem Typer.Ready.atom (hs : s.Ready p b) (type : AtomType) :
    s.typing.registry.Represents b (.atom type) type.id := by
  have hlt : type.id < 4 := by cases type <;> decide
  have hget : s.typing.registry.get type.id = Registry.initial.get type.id := hs.sound.atoms _ hlt
  have hshape : s.typing.registry.shape? type.id = some (.atom type) := by
    rw [Registry.shape?, Registry.form_of_rest (by cases type <;> simp only [Registry.next?, hget] <;> rfl), hget]
    cases type <;> rfl
  exact .of_unfold (Nat.lt_of_lt_of_le hlt hs.sound.base) (.atom type) hshape (.atom type)

/-- A type of the registry represents the type that an expression has by the rules. -/
def Expr.HasTypeOf (b : Bindings) (e : Expr) (a : TypeId) (s : Typer) : Prop :=
  ∃ u, Judgement.Holds b (.value e u) ∧ s.typing.registry.Represents b u a

/-- The parts of an expression are checked, and its type is found and can be noted. -/
structure Typer.FindsExpr (p : Program) (b : Bindings) (k : Nat) (e : Expr) (s : Typer) (a : TypeId)
    (s' : Typer) : Prop where
  covers : s.Covers p b (e.id :: idsOf ((Node.expr e).parts true k)) ((Node.expr e).parts true k) s'
  typed : (Node.expr e).Typed { s'.typing with exprTypes := s'.typing.exprTypes.insert e.id a }
  type : e.HasTypeOf b a s'

/-- An expression is checked, and its type is noted. -/
structure Typer.NotesExpr (p : Program) (b : Bindings) (k : Nat) (e : Expr) (s : Typer) (a : TypeId)
    (s' : Typer) : Prop where
  covers : s.Covers p b (idsOf [(k, .expr e)]) [(k, .expr e)] s'
  noted : s'.typing.exprTypes[e.id]? = some a
  type : e.HasTypeOf b a s'

theorem yields_noting (hp : p.Numbered) {e : Expr} (he : p.Has (.expr e)) {k : Nat} {find : Infer TypeId}
    (hfind : Yields find s (s.FindsExpr p b k e) fault) :
    Yields (noting e.mark find) s (s.NotesExpr p b k e) fault := by
  rw [noting]
  apply hfind.bind
  rintro a s₁ ⟨h, htyped, u, hu, hrep⟩
  simp only [yields_bind, yields_modify, yields_pure]
  have hids : idsOf [(k, .expr e)] = e.id :: idsOf ((Node.expr e).parts true k) := idsOf_singleton k k _
  have hnote : s₁.Checks [e.id]
      { s₁ with typing := { s₁.typing with exprTypes := s₁.typing.exprTypes.insert e.id a } } := by
    refine ⟨.refl _, fun i hi => by simp [Registry.get_of_size_le hi, Ty.isComposite], rfl, rfl, fun id hid => ?_,
      fun _ _ => rfl⟩
    rw [getElem?_note, if_neg]
    rintro rfl
    exact hid (mem_singleton_self _)
  have hnoted : (s₁.typing.exprTypes.insert e.id a)[e.id]? = some a := getElem?_note.trans (if_pos rfl)
  refine ⟨⟨?_, ⟨{ h.ready.sound with }, h.ready.types, h.ready.decls, fun id c => lt_of_note hrep.lt h.ready.exprs⟩,
    ?_⟩, hnoted, u, hu, hrep⟩
  · rw [hids]
    exact h.checks.trans (hnote.mono (by simp))
  · intro q hq _
    obtain rfl := mem_singleton.mp hq
    refine typedBelow_iff.mpr ⟨⟨htyped, a, u, hnoted, hu, hrep⟩, fun r hr =>
      (h.typed r hr.1 hr.2).of_checks h.ready hnote fun m hm hmem => ?_⟩
    obtain heq := mem_singleton.mp hmem
    exact hp.id_ne_of_parts he hr.1 hm heq

def Node.TypeChecked (p : Program) (b : Bindings) (k : Nat) : Node → Prop
  | .expr e => ∀ s, s.Ready p b → Yields (e.typed b (p.typeOf b)) s (s.NotesExpr p b k e) (Node.Refuses b (.expr e))
  | .stmt t => ∀ s, s.Ready p b → Yields (t.check b (p.typeOf b)) s (fun _ s' =>
      s.Covers p b (idsOf [(k, .stmt t)]) [(k, .stmt t)] s') (Node.Refuses b (.stmt t))
  | .decl d => ∀ s, s.Ready p b → Yields (d.checkBody b (p.typeOf b)) s (fun _ s' =>
      s.Covers p b (idsOf [(k, .decl d)]) [(k, .decl d)] s') (Node.Refuses b (.decl d))
  | .type _ => True

theorem yields_forM_covers {α : Type} {wrap : α → Node} {k : Nat} {f : α → Infer PUnit} {xs : List α}
    (h : ∀ x ∈ xs, ∀ s, s.Ready p b → Yields (f x) s (fun _ s' =>
      s.Covers p b (idsOf [(k, wrap x)]) [(k, wrap x)] s') fault)
    (hnodup : (idsOf (xs.map fun x => (k, wrap x))).Nodup) (hs : s.Ready p b) :
    Yields (xs.forM f) s (fun _ s' => s.Covers p b (idsOf (xs.map fun x => (k, wrap x)))
      (xs.map fun x => (k, wrap x)) s') fault := by
  induction xs generalizing s with
  | nil => exact .nil hs
  | cons x xs ih =>
    rw [yields_forM_cons]
    refine (h x mem_cons_self s hs).mono fun _ s₁ h₁ => ?_
    refine (ih (fun x hx => h x (mem_cons_of_mem _ hx)) (nodup_idsOf_tail hnodup) h₁.ready).mono fun _ s₂ h₂ => ?_
    exact h₁.append h₂ hnodup

theorem Stmt.checkAll_eq {follow : Decl → Infer TypeId} (ss : List Stmt) :
    Stmt.checkAll b follow ss = ss.forM (Stmt.check b follow) := by
  induction ss with
  | nil => rfl
  | cons s ss ih =>
    rw [Stmt.checkAll, ih]
    rfl

theorem Decl.checkBodies_eq {follow : Decl → Infer TypeId} (ds : List Decl) :
    Decl.checkBodies b follow ds = ds.forM (Decl.checkBody b follow) := by
  induction ds with
  | nil => rfl
  | cons d ds ih =>
    rw [Decl.checkBodies, ih]
    rfl

/-- A requirement that holds exactly if what is left of a rule does. -/
theorem yields_unless {α : Type} {c : Bool} {x : Infer α} {position : Position} {f : TypeFault}
    {post : α → Typer → Prop} {P holds : Prop} (hc : c ↔ P) (hf : (SemanticFault.type f).Local) (hno : holds → P)
    (hyes : P → Yields x s post fun f => f.Local ∧ ¬ holds) :
    Yields (if c then x else fail position (.type f)) s post fun f => f.Local ∧ ¬ holds := by
  split
  · next h => exact hyes (hc.mp h)
  · next h => exact ⟨hf, fun hholds => h (hc.mpr (hno hholds))⟩

theorem yields_require_iff {ok : Registry → Bool} {position : Position} {f : Registry → TypeFault}
    {post : Unit → Typer → Prop} {P holds : Prop} (hf : ∀ r, (SemanticFault.type (f r)).Local)
    (hok : ok s.typing.registry ↔ P) (hno : holds → P) (hyes : P → post () s) :
    Yields (require ok position f) s post fun f => f.Local ∧ ¬ holds :=
  yields_bind.mpr (yields_unless hok (hf _) hno hyes)

/-- The parts of a node are checked, and it follows from the rules by them. -/
structure Node.PartsChecked (p : Program) (b : Bindings) (k : Nat) (n : Node) : Prop where
  checked : ∀ q ∈ n.parts true k, q.2.TypeChecked p b q.1
  derivable : n.Derivable b → ∀ q ∈ n.parts true k, q.2.Derivable b

namespace Node.PartsChecked

variable {k : Nat} {n : Node} (h : n.PartsChecked p b k) (hs : s.Ready p b)
include h

theorem refuses {q : Nat × Node} (hq : q ∈ n.parts true k) {f : SemanticFault} (hf : q.2.Refuses b f) : n.Refuses b f :=
  ⟨hf.1, fun hn => hf.2 (h.derivable hn q hq)⟩

include hs

theorem expr {α : Type} {e : Expr} {next : TypeId → Infer α} {post : α → Typer → Prop}
    (he : (k, .expr e) ∈ n.parts true k)
    (hnext : ∀ a s₁, s.NotesExpr p b k e a s₁ → Yields (next a) s₁ post (n.Refuses b)) :
    Yields (e.typed b (p.typeOf b) >>= next) s post (n.Refuses b) :=
  yields_bind.mpr ((h.checked _ he s hs).imp hnext fun _ => h.refuses he)

theorem stmts {ss : List Stmt} (hss : ∀ t ∈ ss, (k, .stmt t) ∈ n.parts true k)
    (hnodup : (idsOf (ss.map fun t => (k, .stmt t))).Nodup) :
    Yields (Stmt.checkAll b (p.typeOf b) ss) s (fun _ s' => s.Covers p b (idsOf (ss.map fun t => (k, .stmt t)))
      (ss.map fun t => (k, .stmt t)) s') (n.Refuses b) := by
  rw [Stmt.checkAll_eq]
  exact yields_forM_covers (fun t ht s hs => (h.checked _ (hss t ht) s hs).weaken fun _ =>
    h.refuses (hss t ht)) hnodup hs

theorem decls {ds : List Decl} (hds : ∀ d ∈ ds, (k, .decl d) ∈ n.parts true k)
    (hnodup : (idsOf (ds.map fun d => (k, .decl d))).Nodup) :
    Yields (Decl.checkBodies b (p.typeOf b) ds) s (fun _ s' => s.Covers p b (idsOf (ds.map fun d => (k, .decl d)))
      (ds.map fun d => (k, .decl d)) s') (n.Refuses b) := by
  rw [Decl.checkBodies_eq]
  exact yields_forM_covers (fun d hd s hs => (h.checked _ (hds d hd) s hs).weaken fun _ =>
    h.refuses (hds d hd)) hnodup hs

end Node.PartsChecked

theorem yields_checkArgs {k : Nat} {name : String} {params : List Decl} {args : List Expr}
    (hargs : ∀ e ∈ args, (Node.expr e).TypeChecked p b k)
    (hparams : ∀ d ∈ params, p.Has (.decl d) ∧ d.isType = false) (hlength : params.length = args.length)
    (hnodup : (idsOf (args.map fun e => (k, .expr e))).Nodup) (hs : s.Ready p b) :
    Yields (Expr.checkArgs b (p.typeOf b) name params args) s (fun _ s' =>
      s.Covers p b (idsOf (args.map fun e => (k, .expr e))) (args.map fun e => (k, .expr e)) s' ∧
      Judgement.Holds b (.arguments params args))
      (fun f => f.Local ∧ ¬ Judgement.Holds b (.arguments params args)) := by
  induction args generalizing params s with
  | nil =>
    obtain rfl := eq_nil_of_length_eq_zero hlength
    exact ⟨.nil hs, .noArguments⟩
  | cons e args ih =>
    obtain ⟨d, params, rfl⟩ := exists_cons_of_length_eq_add_one hlength
    obtain ⟨hhas, htype⟩ := hparams d mem_cons_self
    rw [Expr.checkArgs, yields_bind]
    refine (hargs e mem_cons_self s hs).imp ?_ fun f hf =>
      ⟨hf.1, fun hholds => hf.2 (hholds.exists_argument e mem_cons_self)⟩
    rintro t s₁ ⟨h₁, _, u, hu, hrep⟩
    rw [yields_bind]
    refine h₁.ready.yields_typeOf hhas htype fun c hc => yields_bind.mpr ?_
    refine yields_require_iff (fun _ => trivial) (hc.equiv_iff hrep h₁.ready.sound.closed) (fun hholds => ?_)
      fun hmatch => yields_bind.mpr (yields_require_iff (fun _ => trivial) hc.isWord_iff (fun hholds => ?_) ?_)
    · cases hholds with
      | argument harg hmatch =>
        cases hu.unique harg
        exact hmatch
    · cases hholds with
      | argument _ _ hx hxword _ => exact ⟨_, hx, hxword⟩
    · rintro ⟨x, hx, hxword⟩
      refine (ih (fun e he => hargs e (mem_cons_of_mem _ he)) (fun d hd => hparams d (mem_cons_of_mem _ hd))
        (by simpa using hlength) (nodup_idsOf_tail hnodup) h₁.ready).imp ?_ fun f hf => ⟨hf.1, fun hholds => ?_⟩
      · rintro _ s₂ ⟨h₂, hholds⟩
        exact ⟨h₁.append h₂ hnodup, .argument hu hmatch hx hxword hholds⟩
      · cases hholds with
        | argument _ _ _ _ hholds => exact hf.2 hholds

theorem yields_binding {mark : Mark} {name : String} {post : Decl → Typer → Prop}
    (h : ∀ d, b[mark.id]? = some d → post d s) (hnone : b[mark.id]? = none → fault (.undeclared name)) :
    Yields (binding b mark name) s post fault := by
  unfold binding
  split
  · next d hd => exact h d hd
  · next hd => exact hnone hd

theorem getElem?_of_lookup {fields : List (String × TypeId)} {name : String} {i : Nat} {e : TypeId}
    (hi : fields.findIdx? (fun f => f.1 = name) = some i) (he : fields.lookup name = some e) :
    fields[i]? = some (name, e) := by
  induction fields generalizing i with
  | nil => simp at hi
  | cons f fields ih =>
    obtain ⟨g, c⟩ := f
    rw [findIdx?_cons] at hi
    by_cases hname : g = name
    · subst hname
      simp only [decide_true, if_true, Option.some.injEq] at hi
      simp only [lookup_cons_self, Option.some.injEq] at he
      simp [← hi, he]
    · have hne : (name == g) = false := by simpa using fun h => hname h.symm
      simp only [hname, decide_false, if_neg, Bool.false_eq_true, not_false_eq_true, Option.map_eq_some_iff] at hi
      obtain ⟨j, hj, rfl⟩ := hi
      rw [lookup_cons, hne] at he
      exact ih hj he

/-- An expression of which nothing is required but a type. -/
def Expr.isPlain : Expr → Bool
  | .index .. | .field .. | .cast .. => false
  | _ => true

theorem Typer.FindsExpr.of_covers {k : Nat} {e : Expr} {a : TypeId} (hplain : e.isPlain)
    (h : s.Covers p b (idsOf ((Node.expr e).parts true k)) ((Node.expr e).parts true k) s')
    (htype : e.HasTypeOf b a s') : s.FindsExpr p b k e a s' := by
  refine ⟨h.mono (subset_cons_self _ _), ?_, htype⟩
  cases e with
  | index | field | cast => cases hplain
  | _ => exact ⟨a, by simp⟩

section
variable {k : Nat}

theorem Decl.typeChecked (hp : p.Formed) {d : Decl} (hd : p.Has (.decl d))
    (hpart : ∀ q ∈ (Node.decl d).parts true k, q.2.TypeChecked p b q.1) : (Node.decl d).TypeChecked p b k := by
  intro s hs
  have hnodup := (hp.numbered.nodup_parts hd k).of_cons
  have hidle : ∀ {params : List Decl} (result : TypeExpr), (∀ d ∈ params, d.HasRole .parameter) →
      ∀ q ∈ params.map (fun d => (k + 1, Node.decl d)) ++ [(k, .type result)], q.2.isType = false →
        ∃ mark role name type, q.2 = .decl (.typed mark role name type) := by
    intro params result hroles
    refine forall_mem_append.mpr ⟨forall_mem_map.mpr fun d hd _ => ?_, by simp [Node.isType]⟩
    have hrole := hroles d hd
    cases d with
    | typed mark role name type => exact ⟨mark, role, name, type, rfl⟩
    | proto | function => cases hrole
  obtain ⟨j, hj⟩ := hd
  cases d with
  | typed mark role name type =>
    exact .node (.idle hs (by simp [Node.parts, Node.isType])) ⟨trivial, .typed mark role name type⟩
  | proto mark name params result =>
    exact .node (.idle hs (hidle _ (hp.formed _ hj).2)) ⟨trivial, .proto mark name params result⟩
  | function mark name params result body =>
    have hresult : p.Has (.type result) := Program.Has.part ⟨j, hj⟩ (k := k) (q := (k, .type result))
      (by simp [Node.parts])
    rw [Decl.checkBody, yields_bind]
    refine hs.yields_resolve hresult fun c _ hc => ?_
    rw [yields_bind]
    refine (hpart (k + 1, .expr body) (by simp [Node.parts]) s hs).imp ?_ ?_
    · rintro a s₁ ⟨h₁, _, u, hu, hrep⟩
      have hequiv := (hc.widen hs.sound.closed h₁.checks.registry).equiv_iff hrep h₁.ready.sound.closed
      refine yields_require_iff (fun _ => trivial) hequiv (fun hholds => ?_) fun hmatch => ?_
      · cases hholds with
        | function _ _ _ hbody hmatches =>
          cases hu.unique hbody
          exact hmatches
      have hbefore : s.Covers p b (idsOf (params.map (fun d => (k + 1, Node.decl d)) ++ [(k, .type result)]))
          (params.map (fun d => (k + 1, .decl d)) ++ [(k, .type result)]) s := .idle hs (hidle _ (hp.formed _ hj).2)
      have hparts : (Node.decl (.function mark name params result body)).parts true k =
          (params.map (fun d => (k + 1, .decl d)) ++ [(k, .type result)]) ++ [(k + 1, .expr body)] := by
        simp [Node.parts]
      rw [hparts] at hnodup
      refine .node ?_ ⟨trivial, .function mark name params hu hmatch⟩
      rw [hparts]
      exact hbefore.append h₁ hnodup
    · rintro f ⟨hf, hnot⟩
      refine ⟨hf, fun hholds => hnot ?_⟩
      cases hholds with
      | function _ _ _ hbody => exact ⟨_, hbody⟩

theorem Stmt.typeChecked (hp : p.Formed) {t : Stmt} (ht : p.Has (.stmt t))
    (hpart : ∀ q ∈ (Node.stmt t).parts true k, q.2.TypeChecked p b q.1) : (Node.stmt t).TypeChecked p b k := by
  intro s hs
  have hnodup := (hp.numbered.nodup_parts ht k).of_cons
  have hchecked : (Node.stmt t).PartsChecked p b k := ⟨hpart, t.derivable_parts⟩
  cases t with
  | expr mark value =>
    refine hchecked.expr hs (mem_singleton_self _) ?_
    rintro _ s₁ ⟨h₁, _, u, hu, _⟩
    exact h₁.node ⟨trivial, .expression mark hu⟩
  | assign mark dst src =>
    refine hchecked.expr hs (by simp [Node.parts]) ?_
    rintro a s₁ ⟨h₁, _, t, ht, hrep₁⟩
    refine hchecked.expr h₁.ready (by simp [Node.parts]) ?_
    rintro c s₂ ⟨h₂, _, u, hu, hrep₂⟩
    have hrep := hrep₁.widen h₁.ready.sound.closed h₂.checks.registry
    rw [yields_bind]
    refine yields_require_iff (fun _ => trivial) (hrep.equiv_iff hrep₂ h₂.ready.sound.closed) (fun hholds => ?_)
      fun hmatch => yields_require_iff (fun _ => trivial) hrep.isWord_iff (fun hholds => ?_) ?_
    · cases hholds with
      | assign _ hdst hsrc hmatches =>
        cases ht.unique hdst
        cases hu.unique hsrc
        exact hmatches
    · cases hholds with
      | assign _ hdst _ _ hx hxword =>
        cases ht.unique hdst
        exact ⟨_, hx, hxword⟩
    · rintro ⟨x, hx, hxword⟩
      exact (h₁.append h₂ hnodup).node ⟨trivial, .assign mark ht hu hmatch hx hxword⟩
  | cond mark test yes no =>
    have hyes : ∀ s ∈ yes, (k, .stmt s) ∈ (Node.stmt (.cond mark test yes no)).parts true k := fun s hs => by
      simp [Node.parts, hs]
    have hno : ∀ s ∈ no, (k, .stmt s) ∈ (Node.stmt (.cond mark test yes no)).parts true k := fun s hs => by
      simp [Node.parts, hs]
    have hbranches := nodup_idsOf_tail hnodup
    refine hchecked.expr hs mem_cons_self ?_
    rintro a s₁ ⟨h₁, _, u, hu, hrep⟩
    rw [yields_bind]
    refine yields_require_iff (fun _ => trivial) hrep.isBool_iff (fun hholds => ?_) fun hbool => yields_bind.mpr ?_
    · cases hholds with
      | cond _ htest hbool =>
        cases hu.unique htest
        exact hbool
    refine (hchecked.stmts h₁.ready hyes (nodup_idsOf_append hbranches).1).mono fun _ s₂ h₂ => ?_
    refine (hchecked.stmts h₂.ready hno (nodup_idsOf_append hbranches).2.1).mono fun _ s₃ h₃ => ?_
    have hcovers := h₁.append (h₂.append h₃ hbranches) hnodup
    exact hcovers.node ⟨trivial, .cond mark hu hbool (fun s hs => hcovers.judged (hyes s hs) rfl)
      fun s hs => hcovers.judged (hno s hs) rfl⟩
  | loop mark test body =>
    have hbody : ∀ s ∈ body, (k, .stmt s) ∈ (Node.stmt (.loop mark test body)).parts true k := fun s hs => by
      simp [Node.parts, hs]
    refine hchecked.expr hs mem_cons_self ?_
    rintro a s₁ ⟨h₁, _, u, hu, hrep⟩
    rw [yields_bind]
    refine yields_require_iff (fun _ => trivial) hrep.isBool_iff (fun hholds => ?_) fun hbool => ?_
    · cases hholds with
      | loop _ htest hbool =>
        cases hu.unique htest
        exact hbool
    refine (hchecked.stmts h₁.ready hbody (nodup_idsOf_tail hnodup)).mono fun _ s₂ h₂ => ?_
    have hcovers := h₁.append h₂ hnodup
    exact hcovers.node ⟨trivial, .loop mark hu hbool fun s hs => hcovers.judged (hbody s hs) rfl⟩

theorem Program.Has.signature {d : Decl} (hd : p.Has (.decl d)) {params : List Decl} {result : TypeExpr}
    (h : d.signature? = some (params, result)) : (∀ e ∈ params, p.Has (.decl e)) ∧ p.Has (.type result) := by
  have hparts : (∀ e ∈ params, (1, .decl e) ∈ (Node.decl d).parts true 0) ∧
      (0, .type result) ∈ (Node.decl d).parts true 0 := by
    cases d with
    | typed => cases h
    | proto | function =>
      cases h
      simp [Node.parts]
  exact ⟨fun e he => hd.part (hparts.1 e he), hd.part hparts.2⟩

theorem Program.Formed.parameter (hp : p.Formed) {d : Decl} (hd : p.Has (.decl d)) {params : List Decl}
    {result : TypeExpr} (h : d.signature? = some (params, result)) : ∀ e ∈ params, e.HasRole .parameter := by
  obtain ⟨j, hj⟩ := hd
  have hformed := hp.formed _ hj
  cases d with
  | typed => cases h
  | proto | function =>
    cases h
    exact hformed.2

/-- The type of a binary operation by the rules. -/
def BinaryOp.valueType (op : BinaryOp) : SourceType := if op.isArithmetic then .atom .int else .atom .bool

section
variable {mark : Mark} {op : BinaryOp} {lhs rhs : Expr} {r : Registry} {t u v : SourceType} {a c : TypeId}

theorem BinaryOp.holds_of_accepts (ht : Judgement.Holds b (.value lhs t)) (hu : Judgement.Holds b (.value rhs u))
    (ha : r.Represents b t a) (hc : r.Represents b u c) (hr : r.Closed) (h : op.accepts r a c) :
    Judgement.Holds b (.value (.binary mark op lhs rhs) op.valueType) := by
  unfold BinaryOp.accepts at h
  unfold BinaryOp.valueType
  split at h
  · next hop =>
    rw [if_neg (by simp [isArithmetic_eq_false (.inl hop)])]
    rw [Bool.and_eq_true, ha.isBool_iff, hc.isBool_iff] at h
    exact .logical mark hop ht hu h.1 h.2
  · split at h
    · next hop =>
      rw [if_pos hop]
      rw [Bool.and_eq_true, ha.equiv_iff hc hr, Bool.or_eq_true, ha.isInt_iff, ha.isChar_iff] at h
      exact .arithmetic mark hop ht hu h.1 h.2
    · next hlogical harith =>
      rw [if_neg harith]
      split at h
      · next hop =>
        rw [Bool.and_eq_true, ha.equiv_iff hc hr, ha.isWord_iff] at h
        obtain ⟨hmatch, x, hx, hword⟩ := h
        exact .equality mark hop ht hu hmatch hx hword
      · next hequality =>
        have hop : op.isRelational := by cases op <;> simp_all [isLogical, isArithmetic, isEquality, isRelational]
        rw [Bool.and_eq_true, ha.equiv_iff hc hr, ha.isCastable_iff] at h
        obtain ⟨hmatch, x, hx, hordered⟩ := h
        exact .relational mark hop ht hu hmatch hx hordered

theorem BinaryOp.accepts_of_holds (ht : Judgement.Holds b (.value lhs t)) (hu : Judgement.Holds b (.value rhs u))
    (ha : r.Represents b t a) (hc : r.Represents b u c) (hr : r.Closed)
    (h : Judgement.Holds b (.value (.binary mark op lhs rhs) v)) : op.accepts r a c := by
  unfold BinaryOp.accepts
  cases h with
  | logical _ hop hlhs hrhs hbool hbool' =>
    cases ht.unique hlhs
    cases hu.unique hrhs
    rw [if_pos hop, Bool.and_eq_true, ha.isBool_iff, hc.isBool_iff]
    exact ⟨hbool, hbool'⟩
  | arithmetic _ hop hlhs hrhs hmatch hnumber =>
    cases ht.unique hlhs
    cases hu.unique hrhs
    rw [if_neg fun h => by simp [isArithmetic_eq_false (.inl h)] at hop, if_pos hop, Bool.and_eq_true,
      ha.equiv_iff hc hr, Bool.or_eq_true, ha.isInt_iff, ha.isChar_iff]
    exact ⟨hmatch, hnumber⟩
  | equality _ hop hlhs hrhs hmatch hx hword =>
    cases ht.unique hlhs
    cases hu.unique hrhs
    rw [if_neg (by cases op <;> simp_all [isLogical, isEquality]),
      if_neg (by simp [isArithmetic_eq_false (.inr (.inl hop))]), if_pos hop, Bool.and_eq_true,
      ha.equiv_iff hc hr, ha.isWord_iff]
    exact ⟨hmatch, _, hx, hword⟩
  | relational _ hop hlhs hrhs hmatch hx hordered =>
    cases ht.unique hlhs
    cases hu.unique hrhs
    rw [if_neg (by cases op <;> simp_all [isLogical, isRelational]),
      if_neg (by simp [isArithmetic_eq_false (.inr (.inr hop))]),
      if_neg (by cases op <;> simp_all [isEquality, isRelational]), Bool.and_eq_true,
      ha.equiv_iff hc hr, ha.isCastable_iff]
    exact ⟨hmatch, _, hx, hordered⟩

end

theorem Typer.Ready.resultType (hs : s.Ready p b) (op : BinaryOp) :
    s.typing.registry.Represents b op.valueType op.resultType := by
  unfold BinaryOp.valueType BinaryOp.resultType
  split
  · exact hs.atom .int
  · exact hs.atom .bool

theorem UnaryOp.yields_typed (hs : s.Ready p b) {mark : Mark} {op : UnaryOp} {operand : Expr} {position : Position}
    {t : SourceType} {a : TypeId} (ht : Judgement.Holds b (.value operand t))
    (ha : s.typing.registry.Represents b t a) : Yields (op.typed position a) s
      (fun c s' => s.Covers p b [] [] s' ∧ (Expr.unary mark op operand).HasTypeOf b c s')
      (Node.Refuses b (.expr (.unary mark op operand))) := by
  rw [UnaryOp.typed, yields_bind, yields_registry]
  cases op with
  | plus | minus =>
    refine yields_unless ha.isInt_iff trivial ?_ fun hint => ⟨.nil hs, _, .sign mark (by simp) ht hint, hs.atom .int⟩
    rintro ⟨v, hv⟩
    cases hv with
    | sign _ _ hoperand hunfolds =>
      cases ht.unique hoperand
      exact hunfolds
  | not =>
    refine yields_unless ha.isBool_iff trivial ?_ fun hbool => ⟨.nil hs, _, .negation mark ht hbool, hs.atom .bool⟩
    rintro ⟨v, hv⟩
    cases hv with
    | sign _ hop => simp at hop
    | negation _ hoperand hunfolds =>
      cases ht.unique hoperand
      exact hunfolds
  | addr =>
    dsimp only
    split
    · next hvoid =>
      refine ⟨trivial, ?_⟩
      rintro ⟨v, hv⟩
      cases hv with
      | sign _ hop => simp at hop
      | address _ hoperand hnot =>
        cases ht.unique hoperand
        exact hnot (ha.isVoid_iff.mp hvoid)
    · next hvoid =>
      apply (hs.yields_ptr ha).mono
      rintro c s' ⟨h, hc⟩
      refine ⟨h, _, .address mark ht ?_, hc⟩
      exact fun hunfolds => hvoid (ha.isVoid_iff.mpr hunfolds)
  | deref =>
    dsimp only
    split
    · next c hpointee =>
      obtain ⟨u, hu, hc⟩ := ha.of_pointee? hpointee
      split
      · next hvoid =>
        refine ⟨trivial, ?_⟩
        rintro ⟨v, hv⟩
        cases hv with
        | sign _ hop => simp at hop
        | dereference _ hoperand hunfolds hnot =>
          cases ht.unique hoperand
          cases hu.unique hunfolds
          exact hnot (hc.isVoid_iff.mp hvoid)
      · next hvoid =>
        exact ⟨.nil hs, u, .dereference mark ht hu fun hunfolds => hvoid (hc.isVoid_iff.mpr hunfolds), hc⟩
    · next hpointee =>
      refine ⟨trivial, ?_⟩
      rintro ⟨v, hv⟩
      cases hv with
      | sign _ hop => simp at hop
      | dereference _ hoperand hunfolds =>
        cases ht.unique hoperand
        obtain ⟨c, hc⟩ := ha.pointee? hunfolds
        simp [hpointee] at hc

theorem lookup_of_forall₂ {r : Registry} {fs : List (String × SourceType)} {fields : List (String × TypeId)}
    (h : List.Forall₂ (fun f g => f.1 = g.1 ∧ r.Represents b f.2 g.2) fs fields) (name : String) :
    fs.findIdx? (fun f => f.1 = name) = fields.findIdx? (fun f => f.1 = name) ∧
      Option.Rel (r.Represents b) (fs.lookup name) (fields.lookup name) := by
  induction h with
  | nil => exact ⟨rfl, .none⟩
  | @cons f g fs fields hfg _ ih =>
    rw [findIdx?_cons, findIdx?_cons, lookup_cons, lookup_cons, hfg.1, ih.1]
    refine ⟨rfl, ?_⟩
    cases hname : name == g.1 with
    | true => exact .some hfg.2
    | false => exact ih.2

theorem Expr.typeChecked (hp : p.Formed) {e : Expr} (he : p.Has (.expr e))
    (hbound : ∀ name category, (Node.expr e).use? = some (name, category) → ∀ d, b[e.id]? = some d →
      p.Has (.decl d) ∧ d.category = category)
    (hpart : ∀ q ∈ (Node.expr e).parts true k, q.2.TypeChecked p b q.1) : (Node.expr e).TypeChecked p b k := by
  intro s hs
  have hnodup := hp.numbered.nodup_parts he k
  have hchecked : (Node.expr e).PartsChecked p b k := ⟨hpart, e.derivable_parts⟩
  cases e with
  | lit mark value =>
    refine yields_noting hp.numbered he ?_
    cases value with
    | int | char | bool | none => exact .of_covers rfl (.nil hs) ⟨_, .literal mark _, hs.atom _⟩
    | null =>
      apply (hs.yields_ptr (hs.atom .void)).mono
      rintro c s' ⟨h, hc⟩
      exact .of_covers rfl h ⟨_, .literal mark _, hc⟩
    | str =>
      apply (hs.yields_ptr (hs.atom .char)).mono
      rintro c s' ⟨h, hc⟩
      exact .of_covers rfl h ⟨_, .literal mark _, hc⟩
  | name mark name =>
    refine yields_noting hp.numbered he ?_
    rw [yields_bind]
    refine yields_binding (fun d hd => ?_) fun hnone => ⟨trivial, ?_⟩
    · obtain ⟨hhas, hcategory⟩ := hbound name .variable rfl d hd
      have htype : d.isType = false := by
        cases d with
        | typed _ role =>
          cases role with
          | type => cases hcategory
          | _ => rfl
        | proto | function => rfl
      refine hs.yields_typeOf hhas htype fun a ha => ?_
      exact .of_covers rfl (.nil hs) ⟨_, .name name hd, ha⟩
    · rintro ⟨v, hv⟩
      cases hv with
      | name _ hd => cases hnone.symm.trans hd
  | call mark name args =>
    refine yields_noting hp.numbered he ?_
    rw [yields_bind]
    refine yields_binding (fun d hd => ?_) fun hnone => ⟨trivial, ?_⟩
    · obtain ⟨hhas, -⟩ := hbound name .function rfl d hd
      split
      · next hsignature =>
        refine ⟨trivial, ?_⟩
        rintro ⟨v, hv⟩
        cases hv with
        | call _ hd' hsignature' =>
          cases hd.symm.trans hd'
          cases hsignature.symm.trans hsignature'
      next params result hsignature =>
      -- any derivation is about these parameters
      have hargs : (Node.expr (.call mark name args)).Derivable b → Judgement.Holds b (.arguments params args) := by
        rintro ⟨v, hv⟩
        cases hv with
        | call _ hd' hsignature' hargs =>
          cases hd.symm.trans hd'
          cases hsignature.symm.trans hsignature'
          exact hargs
      split
      · next hlength =>
        have hparams : ∀ d ∈ params, p.Has (.decl d) ∧ d.isType = false := fun d hd =>
          ⟨(hhas.signature hsignature).1 d hd, (hp.parameter hhas hsignature d hd).isType_eq_false (by simp)⟩
        rw [yields_bind]
        refine (yields_checkArgs (fun e he => hpart (k, .expr e) (by simpa [Node.parts] using he)) hparams hlength
          hnodup.of_cons hs).imp ?_ fun f hf => ⟨hf.1, fun h => hf.2 (hargs h)⟩
        rintro _ s₁ ⟨h₁, hholds⟩
        refine h₁.ready.yields_resolve (hhas.signature hsignature).2 fun a _ ha => ?_
        exact .of_covers rfl h₁ ⟨_, .call name hd hsignature hholds, ha⟩
      · next hlength => exact ⟨trivial, fun h => hlength (hargs h).length_eq⟩
    · rintro ⟨v, hv⟩
      cases hv with
      | call _ hd => cases hnone.symm.trans hd
  | binary mark op lhs rhs =>
    refine yields_noting hp.numbered he (hchecked.expr hs (by simp [Node.parts]) ?_)
    rintro a s₁ ⟨h₁, _, t, ht, ha₁⟩
    refine hchecked.expr h₁.ready (by simp [Node.parts]) ?_
    rintro c s₂ ⟨h₂, _, u, hu, hc⟩
    have ha := ha₁.widen h₁.ready.sound.closed h₂.checks.registry
    rw [yields_bind]
    refine yields_require_iff (fun _ => trivial) .rfl ?_ fun haccepts => ?_
    · rintro ⟨v, hv⟩
      exact BinaryOp.accepts_of_holds ht hu ha hc h₂.ready.sound.closed hv
    · have hholds : Judgement.Holds b (.value (.binary mark op lhs rhs) op.valueType) :=
        BinaryOp.holds_of_accepts ht hu ha hc h₂.ready.sound.closed haccepts
      exact .of_covers rfl (h₁.append h₂ hnodup.of_cons) ⟨_, hholds, h₂.ready.resultType op⟩
  | unary mark op operand =>
    refine yields_noting hp.numbered he (hchecked.expr hs (mem_singleton_self _) ?_)
    rintro a s₁ ⟨h₁, _, t, ht, ha⟩
    apply (UnaryOp.yields_typed h₁.ready ht ha).mono
    rintro c s₂ ⟨h₂, hc⟩
    exact .of_covers rfl (h₁.thenNothing h₂) hc
  | cast mark value type =>
    have htype : p.Has (.type type) := he.part (k := k) (q := (k, .type type)) (by simp [Node.parts])
    refine yields_noting hp.numbered he (hchecked.expr hs (by simp [Node.parts]) ?_)
    rintro a s₁ ⟨h₁, _, t, ht, ha⟩
    rw [yields_bind]
    refine h₁.ready.yields_resolve htype fun c hnoted hc => yields_bind.mpr ?_
    refine yields_require_iff (fun _ => trivial) (by rw [Bool.and_eq_true, ha.isCastable_iff, hc.isCastable_iff]) ?_ ?_
    · rintro ⟨v, hv⟩
      cases hv with
      | cast _ hvalue hx hxcast hy hycast =>
        cases ht.unique hvalue
        exact ⟨⟨_, hx, hxcast⟩, _, hy, hycast⟩
    · rintro ⟨⟨x, hx, hxcast⟩, y, hy, hycast⟩
      have hidle : s₁.Covers p b (idsOf [(k, .type type)]) [(k, .type type)] s₁ :=
        .idle h₁.ready (by simp [Node.isType])
      refine ⟨(h₁.append hidle hnodup.of_cons).mono (subset_cons_self _ _), ⟨c, ?_, hnoted⟩, _,
        .cast mark ht hx hxcast hy hycast, hc⟩
      simp [Expr.id, Expr.mark]
  | new mark type =>
    have htype : p.Has (.type type) := he.part (k := k) (q := (k, .type type)) (by simp [Node.parts])
    refine yields_noting hp.numbered he ?_
    rw [yields_bind]
    refine hs.yields_resolve htype fun a _ ha => yields_bind.mpr ?_
    refine yields_require_iff (fun _ => trivial)
      (by rw [Bool.not_eq_true_eq_eq_false, ← Bool.not_eq_true, ha.isVoid_iff])
      ?_ fun hnot => ?_
    · rintro ⟨v, hv⟩
      cases hv with
      | new _ hnot => exact hnot
    · apply (hs.yields_ptr ha).mono
      rintro c s₁ ⟨h₁, hc⟩
      have hidle : s.Covers p b (idsOf [(k, .type type)]) [(k, .type type)] s := .idle hs (by simp [Node.isType])
      exact .of_covers rfl (hidle.thenNothing h₁) ⟨_, .new mark hnot, hc⟩
  | del mark value =>
    refine yields_noting hp.numbered he (hchecked.expr hs (mem_singleton_self _) ?_)
    rintro a s₁ ⟨h₁, _, t, ht, ha⟩
    rw [yields_bind]
    refine yields_require_iff (fun _ => trivial) ha.isDeletable_iff ?_ ?_
    · rintro ⟨v, hv⟩
      cases hv with
      | del _ hvalue hunfolds hnot =>
        cases ht.unique hvalue
        exact ⟨_, hunfolds, hnot⟩
    · rintro ⟨u, hu, hnot⟩
      exact .of_covers rfl h₁ ⟨_, .del mark ht hu hnot, h₁.ready.atom .void⟩
  | index mark array index =>
    refine yields_noting hp.numbered he (hchecked.expr hs (by simp [Node.parts]) ?_)
    rintro a s₁ ⟨h₁, hnoted, t, ht, ha₁⟩
    refine hchecked.expr h₁.ready (by simp [Node.parts]) ?_
    rintro c s₂ ⟨h₂, _, u, hu, hc⟩
    have ha := ha₁.widen h₁.ready.sound.closed h₂.checks.registry
    rw [yields_bind, yields_registry]
    split
    · next hnone =>
      refine ⟨trivial, ?_⟩
      rintro ⟨v, hv⟩
      cases hv with
      | index _ harray _ hunfolds =>
        cases ht.unique harray
        obtain ⟨e, he⟩ := ha.element? hunfolds
        simp [hnone] at he
    next element helement =>
    obtain ⟨n, v, hv, helem⟩ := ha.of_element? helement
    rw [yields_bind]
    refine yields_require_iff (fun _ => trivial) hc.isInt_iff ?_ fun hint => ?_
    · rintro ⟨v, hv⟩
      cases hv with
      | index _ _ hindex _ hunfolds =>
        cases hu.unique hindex
        exact hunfolds
    · have hapart := (@nodup_idsOf_append [_] [_] hnodup.of_cons).2.2 _ (id_mem_idsOf k (.expr array))
      have hne : mark.id ≠ array.id := (hp.numbered.id_ne_of_parts he (k := k) (q := (k, .expr array))
        (by simp [Node.parts]) (Node.mem_nodes_self _)).symm
      refine ⟨(h₁.append h₂ hnodup.of_cons).mono (subset_cons_self _ _), ⟨a, element, ?_, helement, ?_⟩, v,
        .index mark ht hu hv hint, helem⟩
      · exact (getElem?_note.trans (if_neg hne)).trans ((h₂.checks.exprs _ hapart).trans hnoted)
      · exact getElem?_note.trans (if_pos rfl)
  | field mark record name =>
    refine yields_noting hp.numbered he (hchecked.expr hs (mem_singleton_self _) ?_)
    rintro a s₁ ⟨h₁, hnoted, t, ht, ha⟩
    rw [yields_bind, yields_registry]
    split
    · next hnone =>
      refine ⟨trivial, ?_⟩
      rintro ⟨v, hv⟩
      cases hv with
      | field _ hrecord hunfolds =>
        cases ht.unique hrecord
        obtain ⟨fields, hfields⟩ := ha.fields? hunfolds
        simp [hnone] at hfields
    next fields hfields =>
    obtain ⟨fs, hfs, hcomponents⟩ := ha.of_fields? hfields
    obtain ⟨-, hlookup⟩ := lookup_of_forall₂ hcomponents name
    split
    · next i c hi hc =>
      simp only [yields_bind, yields_modify, yields_pure]
      have hnew : mark.id ∉ idsOf [(k, .expr record)] := (nodup_cons.mp hnodup).1
      have hne : mark.id ≠ record.id := fun heq => hnew (heq ▸ id_mem_idsOf k (.expr record))
      have hnote : s₁.Checks [mark.id] { s₁ with typing :=
          { s₁.typing with fieldIndices := s₁.typing.fieldIndices.insert mark.id i } } := by
        refine ⟨.refl _, (Checks.refl s₁ : s₁.Checks [] s₁).pointers, rfl, rfl, fun _ _ => rfl, fun id hid => ?_⟩
        refine getElem?_note.trans (if_neg ?_)
        rintro rfl
        exact hid (mem_singleton_self _)
      obtain ⟨v, hv, hrep⟩ : ∃ v, fs.lookup name = some v ∧ s₁.typing.registry.Represents b v c := by
        rw [hc] at hlookup
        cases hv : fs.lookup name with
        | none => simp [hv] at hlookup
        | some v =>
          rw [hv] at hlookup
          cases hlookup with
          | some h => exact ⟨v, rfl, h⟩
      refine ⟨⟨?_, { h₁.ready with sound := { h₁.ready.sound with } }, fun q hq htype => ?_⟩,
        ⟨a, fields, i, c, ?_, hfields, hi, getElem?_of_lookup hi hc, getElem?_note.trans (if_pos rfl),
          getElem?_note.trans (if_pos rfl)⟩, v, .field mark ht hfs hv, hrep⟩
      · exact (h₁.checks.mono (subset_cons_self _ _)).trans (hnote.mono (by simp [Expr.id, Expr.mark]))
      · refine (h₁.typed q hq htype).of_checks h₁.ready hnote fun m hm hid => ?_
        obtain rfl := mem_singleton.mp hq
        exact hnew (mem_singleton.mp hid ▸ mem_map_of_mem (by simpa using hm))
      · exact (getElem?_note.trans (if_neg hne)).trans hnoted
    · next hnone =>
      refine ⟨trivial, ?_⟩
      rintro ⟨v, hv⟩
      cases hv with
      | field _ hrecord hunfolds hfield =>
        cases ht.unique hrecord
        cases hfs.unique hunfolds
        rw [hfield] at hlookup
        cases hc : fields.lookup name with
        | none => simp [hc] at hlookup
        | some c =>
          have hsome : (fields.lookup name).isSome := by simp [hc]
          have hfound : (fields.findIdx? fun f => f.1 = name).isSome := by simpa using hsome
          obtain ⟨i, hi⟩ := Option.isSome_iff_exists.mp hfound
          exact hnone i c hi hc
  | block mark stmts value decls =>
    have hdecls : ∀ d ∈ decls, (k, .decl d) ∈ (Node.expr (.block mark stmts value decls)).parts true k :=
      fun d hd => by simp [Node.parts, hd]
    have hstmts : ∀ s ∈ stmts, (k, .stmt s) ∈ (Node.expr (.block mark stmts value decls)).parts true k :=
      fun s hs => by simp [Node.parts, hs]
    have hvalue : (k, .expr value) ∈ (Node.expr (.block mark stmts value decls)).parts true k := by
      simp [Node.parts]
    obtain ⟨hfirst, hrest, -⟩ := @nodup_idsOf_append (decls.map _) (stmts.map _ ++ [_]) hnodup.of_cons
    refine yields_noting hp.numbered he (yields_bind.mpr ?_)
    refine (hchecked.decls hs hdecls hfirst).mono fun _ s₁ h₁ => yields_bind.mpr ?_
    refine (hchecked.stmts h₁.ready hstmts (nodup_idsOf_append hrest).1).mono fun _ s₂ h₂ => ?_
    refine (hpart _ hvalue s₂ h₂.ready).imp ?_ fun f => hchecked.refuses hvalue
    rintro a s₃ ⟨h₃, _, u, hu, ha⟩
    have hcovers := h₁.append (h₂.append h₃ hrest) hnodup.of_cons
    exact .of_covers rfl hcovers ⟨u, .block mark (fun d hd => hcovers.judged (hdecls d hd) rfl)
      (fun s hs => hcovers.judged (hstmts s hs) rfl) hu, ha⟩

end

/-- Every node is checked, if every use is bound to a declaration of the program and of its category. -/
theorem Node.typeChecked (hp : p.Formed) (hbound : p.BindsUses b) (k : Nat) {n : Node} (hn : p.Has n) :
    n.TypeChecked p b k := by
  induction k, n using Node.induct with
  | h k n ih =>
    have hpart : ∀ q ∈ n.parts true k, q.2.TypeChecked p b q.1 := fun q hq => ih q hq (hn.part hq)
    cases n with
    | type t => trivial
    | decl d => exact Decl.typeChecked hp hn hpart
    | stmt t => exact Stmt.typeChecked hp hn hpart
    | expr e => exact Expr.typeChecked hp hn (hbound _ hn) hpart

/-- The types of parameters are words, and those of results are words or void. -/
def Decl.SignatureOk (r : Registry) (a : TypeId) : Decl → Prop
  | .typed _ .parameter .. => r.isWord a
  | .proto .. | .function .. => r.isWord a ∨ r.isVoid a
  | _ => True

theorem Decl.yields_checkSignature (d : Decl) : Yields d.checkSignature s (fun _ s' => s' = s ∧
    ∀ a, s.typing.declTypes[d.id]? = some a → d.SignatureOk s.typing.registry a)
    (fun f => f.Local ∧ ∃ a, s.typing.declTypes[d.id]? = some a ∧ ¬ d.SignatureOk s.typing.registry a) := by
  rw [Decl.checkSignature, yields_bind, yields_get]
  split
  · next hnone => exact ⟨rfl, by simp [hnone]⟩
  · next a ha =>
    have hall : d.SignatureOk s.typing.registry a → ∀ c, s.typing.declTypes[d.id]? = some c →
        d.SignatureOk s.typing.registry c := fun h c hc => Option.some.inj (ha.symm.trans hc) ▸ h
    split
    · rw [yields_require]
      split
      · next h => exact ⟨rfl, hall h⟩
      · next h => exact ⟨trivial, a, ha, h⟩
    · rw [yields_require]
      split
      · next h => exact ⟨rfl, hall (by simpa [Decl.SignatureOk] using h)⟩
      · next h => exact ⟨trivial, a, ha, by simpa [Decl.SignatureOk] using h⟩
    · rw [yields_require]
      split
      · next h => exact ⟨rfl, hall (by simpa [Decl.SignatureOk] using h)⟩
      · next h => exact ⟨trivial, a, ha, by simpa [Decl.SignatureOk] using h⟩
    · next hparam hproto hfunction =>
      refine ⟨rfl, hall ?_⟩
      unfold Decl.SignatureOk
      split
      · exact absurd rfl (hparam _ _ _)
      · exact absurd rfl (hproto _ _ _ _)
      · exact absurd rfl (hfunction _ _ _ _ _)
      · trivial

/-- The forms of parameters and results by the rules. -/
def Decl.SignatureHolds (b : Bindings) : Decl → Prop
  | .typed _ .parameter _ type => ∃ x, (SourceType.written type).Unfolds b x ∧ x.isWord
  | .proto _ _ _ result | .function _ _ _ result _ =>
    ∃ x, (SourceType.written result).Unfolds b x ∧ (x.isWord ∨ x = .atom .void)
  | _ => True

theorem Decl.signatureOk_iff {r : Registry} {d : Decl} {a : TypeId} (h : r.Represents b (.written d.type) a) :
    d.SignatureOk r a ↔ d.SignatureHolds b := by
  have hresult : (r.isWord a ∨ r.isVoid a) ↔
      ∃ x, (SourceType.written d.type).Unfolds b x ∧ (x.isWord ∨ x = .atom .void) := by
    rw [h.isWord_iff, h.isVoid_iff]
    constructor
    · rintro (⟨x, hx, hword⟩ | hx)
      · exact ⟨x, hx, .inl hword⟩
      · exact ⟨_, hx, .inr rfl⟩
    · rintro ⟨x, hx, hword | rfl⟩
      · exact .inl ⟨x, hx, hword⟩
      · exact .inr hx
  cases d with
  | typed mark role name type =>
    cases role with
    | parameter => exact h.isWord_iff
    | _ => exact Iff.rfl
  | proto | function => exact hresult

theorem Program.wellTyped_iff : p.WellTyped b ↔ (∀ d ∈ p.decls, Judgement.Holds b (.declaration d)) ∧
    ∀ d, p.Has (.decl d) → d.SignatureHolds b := by
  constructor
  · rintro ⟨hdecls, hparams, hresults⟩
    refine ⟨hdecls, fun d hd => ?_⟩
    cases d with
    | typed mark role name type =>
      cases role with
      | parameter => exact hparams mark name type hd
      | _ => trivial
    | proto | function => exact hresults _ _ _ hd rfl
  · rintro ⟨hdecls, hsignatures⟩
    refine ⟨hdecls, fun mark name type hd => hsignatures _ hd, fun d params result hd h => ?_⟩
    have hsignature := hsignatures d hd
    cases d with
    | typed => cases h
    | proto | function =>
      cases h
      exact hsignature

/-- What typing has found out about a program. -/
structure Program.Typings (p : Program) (t : Typing) : Prop where
  resolved : ∃ (b : Bindings) (s : Typer), s.Resolved p b ∧ s.typing.registry.Widens t.registry ∧
    (∀ i, s.typing.registry.size ≤ i → (t.registry.get i).isComposite = false) ∧
    t.declTypes = s.typing.declTypes ∧ t.typeTypes = s.typing.typeTypes
  named : ∀ a name d, t.registry.form a ≠ .named name d
  exprs : ∀ (id : NodeId) a, t.exprTypes[id]? = some a → a < t.registry.size
  code : ∀ q, p.InCode q → q.2.Typed t
  signatures : ∀ d, p.Has (.decl d) → ∀ a, t.declTypes[d.id]? = some a → d.SignatureOk t.registry a

theorem Typer.Resolved.ready (hp : p.Formed) (hbound : p.BindsUses b) (hs : s.Resolved p b) : s.Ready p b := by
  refine ⟨hs.sound, fun t ht => ?_, fun d hd => ?_, fun id a ha => by simp [hs.exprs] at ha⟩
  · obtain ⟨a, ha, -⟩ := hs.types t ht
    exact ⟨a, ha, hs.represents hp hbound ht ha⟩
  · obtain ⟨a, ha, -⟩ := hs.decls d hd
    exact ⟨a, ha, fun htype => hs.declared d hd htype a ha⟩

theorem Typer.Resolved.form_ne_named (hs : s.Resolved p b) (a : TypeId) (name : String) (d : Option TypeId) :
    s.typing.registry.form a ≠ .named name d := by
  intro hform
  obtain ⟨e, he, htype, hnoted⟩ := (hs.lists _).named name d hform
  obtain ⟨c, hget, -⟩ := hs.definition he htype hnoted
  have hrest := Registry.rest_of_circle? hs.circles a
  rw [Registry.next?, hget] at hrest
  cases hrest

theorem Typer.Checks.form_ne_named (hc : s.Checks own s') (hs : s.Resolved p b) (a : TypeId) (name : String)
    (d : Option TypeId) : s'.typing.registry.form a ≠ .named name d := by
  rcases Nat.lt_or_ge a s.typing.registry.size with hlt | hge
  · rw [hc.registry.form_of_ne_named hs.sound.closed hlt rfl (hs.form_ne_named a)]
    exact hs.form_ne_named a name d
  · have hname := (hc.pointers a hge).2
    have hrest : s'.typing.registry.next? a = none := Registry.next?_eq_none.mpr fun name d => hname name (some d)
    rw [Registry.form_of_rest hrest]
    exact hname name d

theorem yields_checkSignatures (hs : s.Ready p b) :
    Yields (p.allDecls.forM Decl.checkSignature) s (fun _ s' => s' = s ∧ ∀ d, p.Has (.decl d) →
      d.SignatureHolds b ∧ ∀ a, s.typing.declTypes[d.id]? = some a → d.SignatureOk s.typing.registry a)
      (fun f => f.Local ∧ ∃ d, p.Has (.decl d) ∧ ¬ d.SignatureHolds b) := by
  have hiff : ∀ d, p.Has (.decl d) → ∃ a, s.typing.declTypes[d.id]? = some a ∧
      (d.SignatureOk s.typing.registry a ↔ d.SignatureHolds b) := fun d hd => by
    obtain ⟨a, ha, hnoted⟩ := hs.decls d hd
    refine ⟨a, ha, ?_⟩
    cases htype : d.isType with
    | false =>
      obtain ⟨c, hc, hrep⟩ := hs.types d.type hd.type
      obtain rfl : c = a := Option.some.inj (hc.symm.trans (hnoted htype))
      exact Decl.signatureOk_iff hrep
    | true =>
      cases d with
      | typed _ role =>
        cases role with
        | type => exact Iff.rfl
        | _ => cases htype
      | proto | function => cases htype
  apply (yields_forM_checks (C := fun d => d.SignatureHolds b ∧ ∀ a, s.typing.declTypes[d.id]? = some a →
    d.SignatureOk s.typing.registry a) fun d hd => ?_).mono
  · rintro _ _ ⟨heq, h⟩
    exact ⟨heq, fun d hd => h d (Program.mem_allDecls.mpr hd)⟩
  · have hd := Program.mem_allDecls.mp hd
    obtain ⟨a, ha, hok⟩ := hiff d hd
    refine d.yields_checkSignature.imp ?_ ?_
    · rintro _ _ ⟨heq, hsignature⟩
      exact ⟨heq, hok.mp (hsignature a ha), hsignature⟩
    · rintro f ⟨hf, c, hc, hnot⟩
      obtain rfl : c = a := Option.some.inj (hc.symm.trans ha)
      exact ⟨hf, d, hd, fun h => hnot (hok.mpr h)⟩

theorem yields_checkTypes (hp : p.Formed) (hbound : p.BindsUses b) (hs : s.Resolved p b) :
    Yields (p.checkTypes b) s (fun _ s' => p.Typings s'.typing ∧ p.WellTyped b ∧
      ∀ q, p.InCode q → q.2.Judged b s'.typing) (fun f => f.Local ∧ ¬ p.WellTyped b) := by
  have hdecl : ∀ d ∈ p.decls, p.Has (.decl d) := fun d hd => ⟨0, Program.mem_levels_decl hd⟩
  rw [Program.checkTypes, yields_bind, Decl.checkBodies_eq]
  refine (yields_forM_covers (fun d hd s' hs' => (Node.typeChecked hp hbound 0 (hdecl d hd) s' hs').weaken
    fun f hf => ⟨hf.1, fun h => hf.2 (h.declarations d hd)⟩) hp.numbered.nodup_decls
    (hs.ready hp hbound)).mono fun _ s₁ h₁ => ?_
  have hmem : ∀ d ∈ p.decls, (0, Node.decl d) ∈ p.decls.map fun d => (0, .decl d) := fun d hd =>
    mem_map_of_mem hd
  refine (yields_checkSignatures h₁.ready).imp ?_ ?_
  · rintro _ s₂ ⟨heq, hsignatures⟩
    subst heq
    have hbelow : ∀ q, p.InCode q → q.2.Typed s₂.typing ∧ q.2.Judged b s₂.typing := by
      rintro q ⟨d, hd, hpath⟩
      exact h₁.typed (0, .decl d) (hmem d hd) rfl q hpath
    refine ⟨⟨⟨b, s, hs, h₁.checks.registry, fun i hi => (h₁.checks.pointers i hi).1, h₁.checks.decls,
      h₁.checks.types⟩, h₁.checks.form_ne_named hs, h₁.ready.exprs, fun q hq => (hbelow q hq).1,
      fun d hd => (hsignatures d hd).2⟩, ?_, fun q hq => (hbelow q hq).2⟩
    exact Program.wellTyped_iff.mpr ⟨fun d hd => h₁.judged (hmem d hd) rfl, fun d hd => (hsignatures d hd).1⟩
  · rintro f ⟨hf, d, hd, hnot⟩
    exact ⟨hf, fun h => hnot ((Program.wellTyped_iff.mp h).2 d hd)⟩

end

namespace Program

variable {p : Program} {b : Bindings}

/-- Typing finds faults of its own only, and otherwise the types of all nodes. Once the types are resolved, it
finds a fault if and only if some body or signature is not as the rules say. -/
theorem Formed.yields_typing (hp : p.Formed) (hb : p.bind = .ok b) : Yields (p.resolveTypes b) {}
    (fun _ s => s.Resolved p b ∧ Yields (p.checkTypes b) s (fun _ s' => p.Typings s'.typing ∧ p.WellTyped b ∧
      ∀ q, p.InCode q → q.2.Judged b s'.typing) (fun f => f.Local ∧ ¬ p.WellTyped b)) SemanticFault.Static :=
  (yields_resolveTypes hp (hp.bindsUses hb)).mono fun _ _ hs => ⟨hs, yields_checkTypes hp (hp.bindsUses hb) hs⟩

theorem Formed.yields_types (hp : p.Formed) (hb : p.bind = .ok b) :
    Yields (do p.resolveTypes b; p.checkTypes b) {} (fun _ s => p.Typings s.typing) SemanticFault.Static :=
  yields_bind.mpr ((hp.yields_typing hb).mono fun _ _ h => h.2.imp (fun _ _ h => h.1) fun _ h => h.1.static)

theorem Formed.typing (hp : p.Formed) (hb : p.bind = .ok b) {t : Typing} (ht : p.typing b = .ok t) : p.Typings t := by
  simp only [Program.typing, bind_eq_ok] at ht
  obtain ⟨⟨_, s⟩, hrun, heq⟩ := ht
  cases heq
  exact (hp.yields_types hb).of_run hrun

end Program
end MmixCompiler
