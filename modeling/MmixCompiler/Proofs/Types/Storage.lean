import MmixCompiler.Proofs.Types.Checking

/-! Storage of type void. Whether a type is void is asked while names are still without definitions, so
what is declared is of type void only by a type declaration that comes later in the source. -/

namespace MmixCompiler

open List

variable {n : Node} {a : TypeId} {d : Decl}

namespace Registry

variable {r r' : Registry} {a : TypeId}

/-- A type that has become void leads to one that has changed. -/
theorem exists_changed (hr : r.Closed) (ha : a < r.size) (hold : r.isVoid a = false)
    (hnew : r'.isVoid a = true) : ∃ k, r'.follow k a < r.size ∧ r'.get (r'.follow k a) ≠ r.get (r'.follow k a) := by
  by_contra hsame
  push Not at hsame
  -- as nothing on the way has changed, the old registry leads the same way
  have hway : ∀ n, r.follow n a = r'.follow n a := fun n => by
    induction n using Nat.strong_induction_on with
    | h n ih =>
      refine follow_congr fun m hm => (hsame m ?_).symm
      rw [← ih m hm]
      exact hr.follow_lt ha m
  have hvoid : r'.get (r'.follow r'.size a) = .void := of_decide_eq_true hnew
  have hget : r.get (r.follow r'.size a) = .void := by
    rw [hway, ← hsame _ (hway r'.size ▸ hr.follow_lt ha _), hvoid]
  have hrest : r.next? (r.follow r'.size a) = none := by rw [next?, hget]
  refine isVoid_eq_false.mp hold ?_
  rw [form, actual_of_rest hrest, hget]

theorem exists_bytes_of_form (h : (r.form a).isComposite = false) : ∃ b, r.bytes? a = some b := by
  rw [bytes?, bytesTo]
  cases hform : r.form a with
  | arr | record => simp [hform, Ty.isComposite] at h
  | _ => exact ⟨_, rfl⟩

end Registry

/-- What types are made of: types, record components and constant lengths. -/
def Node.Inert : Node → Prop
  | .type _ => True
  | .decl d => d.HasRole .component
  | .expr e => ∃ n, e.constant = .ok n
  | .stmt _ => False

section
variable {p : Program} {bindings : Bindings} {s s' : Typer}

theorem Typer.Resolved.length_constant (hs : s.Resolved p bindings) {mark : Mark} {length : Expr} {element : TypeExpr}
    (h : p.Has (.type (.arr mark length element))) : ∃ n, length.constant = .ok n := by
  obtain ⟨_, -, n, -, hn, -⟩ := hs.types _ h
  exact ⟨n, hn⟩

theorem Node.Inert.part (hp : p.Formed) (hs : s.Resolved p bindings) (hn : p.Has n) (h : n.Inert)
    {k : Nat} {q : Nat × Node} (hq : q ∈ n.parts true k) : q.2.Inert := by
  cases n with
  | stmt => exact h.elim
  | decl d =>
    cases d with
    | typed mark role name type =>
      obtain rfl := mem_singleton.mp hq
      trivial
    | proto | function => exact h.elim
  | type t =>
    cases t with
    | atom | named => cases hq
    | ptr mark target =>
      obtain rfl := mem_singleton.mp hq
      trivial
    | arr mark length element =>
      obtain rfl | hq := mem_cons.mp hq
      · exact hs.length_constant hn
      · obtain rfl := mem_singleton.mp hq
        trivial
    | record mark components =>
      obtain ⟨d, hd, rfl⟩ := mem_map.mp hq
      obtain ⟨j, hj⟩ := hn
      exact (hp.formed _ hj).2 d hd
  | expr e =>
    obtain ⟨v, hv⟩ := h
    unfold Expr.constant at hv
    split at hv
    · cases hq
    · obtain rfl := mem_singleton.mp hq
      exact ⟨v, hv⟩
    · obtain rfl := mem_singleton.mp hq
      obtain ⟨x, hx, -⟩ := bind_eq_ok.mp hv
      exact ⟨x, hx⟩
    · split at hv
      · obtain ⟨x, hx, hv⟩ := bind_eq_ok.mp hv
        obtain ⟨y, hy, -⟩ := bind_eq_ok.mp hv
        obtain rfl | hq := mem_cons.mp hq
        · exact ⟨x, hx⟩
        · obtain rfl := mem_singleton.mp hq
          exact ⟨y, hy⟩
      · cases hv
    all_goals cases hv

theorem Node.Inert.nodes (hp : p.Formed) (hs : s.Resolved p bindings) (hn : p.Has n) (h : n.Inert) :
    ∀ m ∈ n.nodes, m.Inert := by
  induction (0 : Nat), n using Node.induct with
  | h k n ih =>
    intro m hm
    rw [Node.nodes, Node.entered_walk k, mem_map] at hm
    obtain ⟨r, hr, rfl⟩ := hm
    rcases Node.mem_levels.mp hr with rfl | ⟨q, hq, hr⟩
    · exact h
    · refine ih q hq (hn.part hq) (h.part hp hs hn hq) r.2 ?_
      rw [Node.nodes, Node.entered_walk q.1]
      exact mem_map_of_mem hr

/-- The declaration comes later in the source than the node begins. -/
def Program.Later (p : Program) (n : Node) (d : Decl) : Prop :=
  ∃ before after, entered p.walk = before ++ n :: after ∧ .decl d ∈ after

theorem Node.infix_nodes {k : Nat} {q : Nat × Node} (h : q ∈ n.levels k) : q.2.nodes <:+: n.nodes := by
  induction k, n using Node.induct with
  | h k n ih =>
    rcases Node.mem_levels.mp h with rfl | ⟨r, hr, hq⟩
    · exact infix_rfl
    · have hnodes : n.nodes = n :: (n.parts true k).flatMap fun q => q.2.nodes := by
        rw [Node.nodes, Node.walk_eq true k, entered_around, entered_flatMap]
        rfl
      rw [hnodes]
      refine ((ih r hr hq).trans ?_).trans (suffix_cons _ _).isInfix
      exact infix_of_mem_flatten (mem_map_of_mem hr)

theorem Program.Has.infix_walk (h : p.Has n) : n.nodes <:+: entered p.walk := by
  obtain ⟨k, hk⟩ := h
  obtain ⟨d, hd, hk⟩ := mem_flatMap.mp hk
  refine (Node.infix_nodes hk).trans ?_
  rw [Program.walk, Decl.walkAll_eq, entered_flatMap]
  exact infix_of_mem_flatten (mem_map_of_mem hd)

theorem Program.Numbered.nodup_walk (hp : p.Numbered) : (entered p.walk).Nodup := by
  refine List.Nodup.of_map Node.id ?_
  rw [p.entered_walk, map_map]
  exact hp

/-- Where the walk enters a node, it goes through the nodes below first. -/
theorem Program.Numbered.exists_rest (hp : p.Numbered) {before after : List Node}
    (h : entered p.walk = before ++ n :: after) (hn : p.Has n) : ∃ rest, n :: after = n.nodes ++ rest := by
  obtain ⟨before', rest, heq⟩ := hn.infix_walk
  have hnodup := hp.nodup_walk
  rw [h] at heq hnodup
  rw [n.nodes_eq, append_assoc, cons_append] at heq
  obtain ⟨hafter, hdisjoint⟩ := nodup_append.mp hnodup |>.2
  have hnotBefore : n ∉ before := fun hmem => hdisjoint n hmem n mem_cons_self rfl
  have hnotAfter : n ∉ after := (nodup_cons.mp hafter).1
  obtain ⟨-, -, hrest⟩ := (append_cons_inj_of_notMem hnotBefore hnotAfter).mp heq.symm
  exact ⟨rest, by rw [n.nodes_eq, cons_append, hrest]⟩

namespace Typer

theorem Walks.exists_visit {ns : List Node} (h : s.Walks p bindings ns s') {id : NodeId}
    (hnone : s.typing.typeTypes[id]? = none) (hsome : s'.typing.typeTypes[id]? = some a) :
    ∃ before n after s₁ s₂, ns = before ++ n :: after ∧ s.Walks p bindings before s₁ ∧ s₁.Visits p bindings n s₂ ∧
      s₂.Walks p bindings after s' ∧ s₁.typing.typeTypes[id]? = none ∧ s₂.typing.typeTypes[id]? = some a := by
  induction h with
  | nil => simp [hnone] at hsome
  | @cons n ns s s₁ s' hvisit hrest ih =>
    cases hmid : s₁.typing.typeTypes[id]? with
    | none =>
      obtain ⟨before, m, after, s₂, s₃, rfl, hbefore, hrest⟩ := ih hmid hsome
      exact ⟨n :: before, m, after, s₂, s₃, rfl, .cons hvisit hbefore, hrest⟩
    | some b =>
      obtain rfl : b = a := Option.some.inj ((hrest.grows.types _ b hmid).symm.trans hsome)
      exact ⟨[], n, ns, s, s₁, rfl, .nil s, hvisit, hrest, hnone, hmid⟩

namespace Resolved

/-- A variable or component of type void is so by a later type declaration. -/
theorem storage_later (hs : s.Resolved p bindings) (hd : p.Has (.decl d)) (htype : d.isType = false)
    (hsignature : d.signature? = none) (ha : s.typing.declTypes[d.id]? = some a)
    (hvoid : s.typing.registry.isVoid a = true) : ∃ k e, p.Later (.decl d) e ∧ e.isType ∧
      s.typing.declTypes[e.id]? = some (s.typing.registry.follow k a) := by
  obtain ⟨s₀, -, hwalk⟩ := hs.walk
  obtain ⟨before, after, hsplit⟩ := append_of_mem (mem_entered.mpr (Program.enter_mem_walk.mpr hd))
  rw [hsplit] at hwalk
  obtain ⟨s₁, -, h⟩ := hwalk.split
  obtain _ | ⟨hvisit, hafter⟩ := h
  obtain ⟨b, hb, hresolved⟩ := hvisit.decl d rfl
  obtain rfl : b = a := Option.some.inj ((hafter.grows.decls _ b hb).symm.trans ha)
  rw [htype, if_neg (by simp)] at hresolved
  obtain ⟨k, hk, hchanged⟩ := Registry.exists_changed hvisit.sound.closed (hvisit.sound.decls _ b hb)
    (hresolved hsignature) hvoid
  obtain ⟨e, he, hetype, hnoted⟩ := (hafter.kept hk).resolve_left hchanged
  exact ⟨k, e, ⟨before, after, hsplit, he⟩, hetype, hnoted⟩

theorem isType_of_mem_type (hp : p.Formed) (hs : s.Resolved p bindings) {t : TypeExpr}
    (ht : p.Has (.type t)) (hd : .decl d ∈ (Node.type t).nodes) : d.isType = false :=
  Decl.HasRole.isType_eq_false (Node.Inert.nodes hp hs ht trivial _ hd) (by simp)

/-- Before the type of a declaration there are no type declarations but itself. -/
theorem exists_around_type (hp : p.Formed) (hs : s.Resolved p bindings) (hd : p.Has (.decl d)) :
    ∃ before after, (Node.decl d).nodes = before ++ (Node.type d.type).nodes ++ after ∧
      ∀ e, .decl e ∈ before → e.isType → e = d := by
  have hparams : ∀ params : List Decl, (∀ e ∈ params, e.HasRole .parameter) → (∀ e ∈ params, p.Has (.decl e)) →
      ∀ e, .decl e ∈ params.flatMap (fun e => (Node.decl e).nodes) → e.isType = false := by
    intro params hroles hhas e he
    obtain ⟨param, hparam, he⟩ := mem_flatMap.mp he
    have hrole := hroles param hparam
    cases param with
    | proto | function => exact hrole.elim
    | typed mark role name type =>
      obtain rfl : role = .parameter := hrole
      rw [Node.nodes_eq] at he
      rcases mem_cons.mp he with heq | he
      · cases heq
        rfl
      · have htype : (0, .type type) ∈ (Node.decl (.typed mark .parameter name type)).parts true 0 :=
          mem_singleton_self _
        exact isType_of_mem_type hp hs ((hhas _ hparam).part htype) (by simpa [Node.parts] using he)
  have hself : ∀ {before : List Node}, (∀ e, .decl e ∈ before → e.isType = false) →
      ∀ e, .decl e ∈ Node.decl d :: before → e.isType → e = d := by
    intro before hbefore e he htype
    rcases mem_cons.mp he with heq | he
    · exact Node.decl.inj heq
    · simp [hbefore e he] at htype
  cases d with
  | typed mark role name type =>
    exact ⟨[.decl (.typed mark role name type)], [], by simp [Node.nodes_eq (.decl _), Node.parts, Decl.type],
      hself (by simp)⟩
  | proto mark name params result =>
    obtain ⟨j, hj⟩ := hd
    refine ⟨.decl (.proto mark name params result) :: params.flatMap (fun e => (Node.decl e).nodes), [], ?_,
      hself (hparams params (hp.formed _ hj).2 fun e he => ?_)⟩
    · simp [Node.nodes_eq (.decl (.proto ..)), Node.parts, Decl.type, flatMap_map]
    · exact Program.Has.part (n := .decl (.proto mark name params result)) ⟨j, hj⟩
        (q := (1, .decl e)) (k := 0) (by simp [Node.parts, he])
  | function mark name params result body =>
    obtain ⟨j, hj⟩ := hd
    refine ⟨.decl (.function mark name params result body) :: params.flatMap (fun e => (Node.decl e).nodes),
      (Node.expr body).nodes, ?_, hself (hparams params (hp.formed _ hj).2 fun e he => ?_)⟩
    · simp [Node.nodes_eq (.decl (.function ..)), Node.parts, Decl.type, flatMap_map]
    · exact Program.Has.part (n := .decl (.function mark name params result body)) ⟨j, hj⟩
        (q := (1, .decl e)) (k := 0) (by simp [Node.parts, he])

theorem not_void_of_definition (hs : s.Resolved p bindings) (hd : p.Has (.decl d))
    (htype : d.isType) {k : Nat} (ha : s.typing.declTypes[d.id]? = some (s.typing.registry.follow k a))
    {u : TypeExpr} (hu : .type u ∈ (Node.type d.type).nodes) (hcomposite : u.isComposite) :
    s.typing.registry.isVoid a = false := by
  obtain ⟨definition, hget, hnoted⟩ := hs.definition hd htype ha
  have hdenotes := hs.denotes hd.type hnoted
  obtain ⟨hname, hvoid⟩ : (∀ name c, s.typing.registry.get definition ≠ .named name c) ∧
      s.typing.registry.get definition ≠ .void := by
    cases ht : d.type with
    | atom | named =>
      rw [ht, Node.nodes_eq, Node.parts, flatMap_nil, mem_singleton] at hu
      cases hu
      cases hcomposite
    | ptr =>
      rw [ht] at hdenotes
      obtain ⟨target, -, hb⟩ := hdenotes
      simp [hb]
    | arr =>
      rw [ht] at hdenotes
      obtain ⟨n, element, -, -, hb⟩ := hdenotes
      simp [hb]
    | record =>
      rw [ht] at hdenotes
      obtain ⟨fields, hb, -⟩ := hdenotes
      simp [hb]
  have hfollow : s.typing.registry.follow (k + 1) a = definition := by
    rw [Registry.follow_add, Registry.follow_succ, Registry.next?_eq_some.mpr ⟨_, hget⟩]
    rfl
  have hrest : s.typing.registry.next? definition = none := Registry.next?_eq_none.mpr fun name c => hname name (some c)
  rw [Registry.isVoid_eq_false, Registry.form, Registry.actual_of_rest (hfollow ▸ hrest), hfollow]
  exact hvoid

/-- A node whose visit enters the type of a type expression has it below its own type. Before that type
there are no type declarations but the node. -/
theorem exists_around (hp : p.Formed) (hs : s.Resolved p bindings) {m : Node} (hm : p.Has m) {u : TypeExpr}
    (hu : p.Has (.type u)) (hown : p.Own m u.id) : ∃ v before after,
      m.nodes = before ++ (Node.type v).nodes ++ after ∧ .type u ∈ (Node.type v).nodes ∧ p.Has (.type v) ∧
      ∀ e, .decl e ∈ before → e.isType → v = e.type := by
  have hreach : ∀ v, p.Has (.type v) → p.Reach (.type v) u.id → .type u ∈ (Node.type v).nodes := by
    intro v hv hreach
    rcases hreach with ⟨x, hx, heq⟩ | ⟨d, hd, -, heq⟩
    · rwa [← hp.numbered.eq_of_id (hv.of_nodes hx) hu heq]
    · cases hp.numbered.eq_of_id hd hu heq
  cases m with
  | stmt | expr => exact hown.elim
  | type v => exact ⟨v, [], [], by simp, hreach v hm hown, hm, by simp⟩
  | decl d =>
    obtain ⟨before, after, hnodes, hbefore⟩ := hs.exists_around_type hp hm
    refine ⟨d.type, before, after, hnodes, ?_, hm.type, fun e he htype => by rw [hbefore e he htype]⟩
    rcases hown with heq | hown
    · cases hp.numbered.eq_of_id hu hm heq
    · exact hreach _ (hm.type) hown

/-- An array of elements of type void is one by a later type declaration. -/
theorem array_later (hp : p.Formed) (hs : s.Resolved p bindings) {i e : TypeId} {n : Int}
    (hget : s.typing.registry.get i = .arr n e) (hvoid : s.typing.registry.isVoid e = true) :
    ∃ u k d, p.Has (.type u) ∧ s.typing.typeTypes[u.id]? = some i ∧ p.Later (.type u) d ∧ d.isType ∧
      s.typing.declTypes[d.id]? = some (s.typing.registry.follow k e) := by
  obtain ⟨u, hu, hcomposite, hnoted⟩ := (hs.lists i).composite (by rw [hget]; rfl)
  obtain ⟨mark, length, element, rfl⟩ : ∃ mark length element, u = .arr mark length element := by
    have hdenotes := hs.denotes hu hnoted
    cases u with
    | atom | named | ptr => cases hcomposite
    | arr => exact ⟨_, _, _, rfl⟩
    | record =>
      obtain ⟨fields, hb, -⟩ := hdenotes
      cases hget.symm.trans hb
  obtain ⟨s₀, hs₀, hwalk⟩ := hs.walk
  obtain ⟨before, m, after, s₁, s₂, hsplit, hbefore, hvisit, hafter, hnone, hsome⟩ :=
    hwalk.exists_visit (hs₀.types _ hu) hnoted
  obtain ⟨n', e', r, hget', hwidens, hext, hclosed, hlt, hbetween⟩ := hvisit.arrays mark length element hu hnone i hsome
  cases hget.symm.trans (hafter.grows.registry.get_of_ne_named hget' (by simp) (by simp))
  obtain ⟨k, hk, hchanged⟩ := Registry.exists_changed hclosed hlt hbetween hvoid
  generalize hj : s.typing.registry.follow k e = j at hk hchanged
  -- what has changed is the type of a declaration, and those were all entered at first
  have hentered : j < s₁.typing.registry.size := by
    rcases (hext.trans hafter.grows.registry).get j hk with heq | ⟨name, old, new, -, hnew⟩
    · exact absurd heq hchanged
    · obtain ⟨d, hd, htype, hnoted'⟩ := (hs.lists j).named name _ hnew
      obtain ⟨a, ha⟩ := hs₀.names d hd htype
      obtain rfl : a = j := Option.some.inj ((hwalk.grows.decls _ a ha).symm.trans hnoted')
      exact Nat.lt_of_lt_of_le (hs₀.sound.decls _ a ha) hbefore.grows.registry.size
  obtain ⟨d, hd, htype, hdnoted⟩ : ∃ d, .decl d ∈ m :: after ∧ d.isType ∧ s.typing.declTypes[d.id]? = some j := by
    rcases hvisit.kept j hentered with heq | ⟨d, rfl, htype, hdnoted⟩
    · rcases hafter.kept (Nat.lt_of_lt_of_le hentered hvisit.grows.registry.size) with heq' | ⟨d, hd, hrest⟩
      · exact absurd (heq'.trans (heq.trans (hwidens.get j hentered).symm)) hchanged
      · exact ⟨d, mem_cons_of_mem _ hd, hrest⟩
    · exact ⟨d, mem_cons_self, htype, hafter.grows.decls _ j hdnoted⟩
  have hhas : ∀ x ∈ m :: after, p.Has x := fun x hx => by
    refine Program.enter_mem_walk.mp (mem_entered.mp ?_)
    rw [hsplit]
    exact mem_append_right _ hx
  have hown : p.Own m (TypeExpr.arr mark length element).id := by
    by_contra hnot
    rw [hvisit.grows.otherTypes _ hnot, hnone] at hsome
    cases hsome
  obtain ⟨v, front, back, hnodes, huv, hv, hfront⟩ := hs.exists_around hp (hhas m mem_cons_self) hu hown
  obtain ⟨rest, hrest⟩ := hp.numbered.exists_rest hsplit (hhas m mem_cons_self)
  obtain ⟨x, y, hxy⟩ := append_of_mem huv
  refine ⟨.arr mark length element, k, d, hu, hnoted, ⟨before ++ front ++ x, y ++ back ++ rest, ?_, ?_⟩, htype,
    hj.symm ▸ hdnoted⟩
  · rw [hsplit, hrest, hnodes, hxy]
    simp
  · rw [hrest, hnodes, mem_append, mem_append, mem_append] at hd
    rcases hd with ((hd | hd) | hd) | hd
    · -- the declaration would be the one of which the array is a part
      have hvoid' := hs.not_void_of_definition (hhas _ ?_) htype (hj.symm ▸ hdnoted) (hfront d hd htype ▸ huv) rfl
      · simp [hvoid] at hvoid'
      · rw [hrest, hnodes]
        simp [hd]
    · simp [hs.isType_of_mem_type hp hv hd] at htype
    · simp [hd]
    · simp [hd]

end Resolved

end Typer

end

namespace Program

variable {p : Program} {t : Typing}

namespace Typings

theorem solid (h : p.Typings t) (i : TypeId) : (t.registry.get i).Solid := by
  obtain ⟨_, s, hs, hwidens, hnew, -⟩ := h.resolved
  rcases Nat.lt_or_ge i s.typing.registry.size with hi | hi
  · rw [hwidens.get i hi]
    exact hs.sound.solid i
  · have hplain := hnew i hi
    cases hget : t.registry.get i with
    | arr | record => simp [hget, Ty.isComposite] at hplain
    | _ => trivial

theorem exists_bytes (h : p.Typings t) (a : TypeId) : ∃ b, t.registry.bytes? a = some b := by
  obtain ⟨_, s, hs, hwidens, hnew, -⟩ := h.resolved
  cases hform : (t.registry.form a).isComposite with
  | false => exact Registry.exists_bytes_of_form hform
  | true =>
    have hi : t.registry.actual a < s.typing.registry.size := by
      by_contra hge
      rw [Registry.form, hnew _ (Nat.not_lt.mp hge)] at hform
      cases hform
    have hrest : t.registry.next? (t.registry.actual a) = none := by
      rw [Registry.next?]
      split
      · next hget => rw [Registry.form, hget] at hform; cases hform
      · rfl
    obtain ⟨b, hb⟩ := Option.isSome_iff_exists.mp (hs.bytes (t.registry.actual a) (by
      rw [← hwidens.get _ hi]
      exact hform))
    refine ⟨b, ?_⟩
    have hactual := hwidens.bytes? hs.sound.closed hi hb
    have hsame : t.registry.form (t.registry.actual a) = t.registry.form a :=
      congrArg t.registry.get (Registry.follow_of_rest hrest _)
    rwa [Registry.bytes?, Registry.bytesTo, hsame] at hactual

theorem bytes_eq_extent (h : p.Typings t) (a : TypeId) : t.registry.bytes a = t.registry.extent a := by
  obtain ⟨b, hb⟩ := h.exists_bytes a
  exact Registry.bytes_eq_extent hb

theorem form_ne_named (h : p.Typings t) (ha : t.declTypes[d.id]? = some a)
    {u : TypeId} (hu : t.registry.Within u a) (name : String) (definition : Option TypeId) :
    t.registry.form u ≠ .named name definition := by
  obtain ⟨_, s, hs, hwidens, -, hdecls, -⟩ := h.resolved
  have hlt := hwidens.within_lt hs.sound.closed (hs.sound.decls _ a (hdecls ▸ ha)) hu
  rw [hwidens.form_of_ne_named hs.sound.closed hlt rfl (hs.form_ne_named u)]
  exact hs.form_ne_named u name definition

end Typings

/-- The names of a type lead to that of a type declaration later in the source than the node. -/
def NamedLater (p : Program) (t : Typing) (n : Node) (a : TypeId) : Prop :=
  ∃ k d, p.Later n d ∧ d.isType ∧ t.declTypes[d.id]? = some (t.registry.follow k a)

/-- A program can have storage of type void, but only by a type declaration later in the source than the
storage: the type of a parameter is not void, that of a variable or component and the element type of an array
are not unless their names lead to such a declaration, and what takes less than a word has a void part. -/
theorem void_only_named_later {src : String} {p : Program} {b : Bindings} {t : Typing}
    (hparse : (Program.parse src).1 = .ok p) (hbind : p.bind = .ok b) (htyping : p.typing b = .ok t) :
    (∀ d, p.Has (.decl d) → d.HasRole .parameter → ∃ a, t.declTypes[d.id]? = some a ∧
      t.registry.isVoid a = false) ∧
    (∀ d, p.Has (.decl d) → d.HasRole .variable ∨ d.HasRole .component → ∃ a, t.declTypes[d.id]? = some a ∧
      (t.registry.isVoid a = true → p.NamedLater t (.decl d) a)) ∧
    (∀ i length element, t.registry.get i = .arr length element → t.registry.isVoid element = true →
      ∃ u, p.Has (.type u) ∧ t.typeTypes[u.id]? = some i ∧ p.NamedLater t (.type u) element) ∧
    (∀ d, p.Has (.decl d) → d.isStorage → ∃ a, t.declTypes[d.id]? = some a ∧
      (Word.size ≤ t.registry.bytes a ∨ ∃ u, t.registry.Within u a ∧ t.registry.isVoid u = true)) := by
  have hp := formed_parse hparse
  have h := hp.typing hbind htyping
  obtain ⟨_, s, hs, hwidens, hnew, hdecls, htypes⟩ := h.resolved
  have hdecl : ∀ d, p.Has (.decl d) → ∃ a, t.declTypes[d.id]? = some a := fun d hd => by
    rw [hdecls]
    exact (hs.decls d hd).imp fun _ h => h.1
  have hvoid : ∀ a < s.typing.registry.size, t.registry.isVoid a = true → s.typing.registry.isVoid a = true := by
    intro a ha hvoid
    rcases hwidens.form hs.sound.closed ha with heq | ⟨-, name, c, hname⟩
    · rwa [Registry.isVoid, ← heq]
    · simp [Registry.isVoid, hname] at hvoid
  refine ⟨fun d hd hrole => ?_, fun d hd hrole => ?_, fun i length element hget hnone => ?_, fun d hd _ => ?_⟩
  · obtain ⟨a, ha⟩ := hdecl d hd
    refine ⟨a, ha, ?_⟩
    have hword := h.signatures d hd a ha
    cases d with
    | proto | function => exact hrole.elim
    | typed mark role name type =>
      obtain rfl : role = .parameter := hrole
      rw [Registry.isVoid_eq_false]
      intro hform
      simp [Decl.SignatureOk, Registry.isWord, Registry.isInt, Registry.isChar, Registry.isBool, Registry.isPtr,
        Registry.pointee?, hform] at hword
  · obtain ⟨a, ha⟩ := hdecl d hd
    refine ⟨a, ha, fun hnone => ?_⟩
    obtain ⟨htype, hsignature⟩ : d.isType = false ∧ d.signature? = none := by
      cases d with
      | proto | function => exact hrole.elim False.elim False.elim
      | typed mark role name type =>
        obtain rfl | rfl : role = .variable ∨ role = .component := hrole <;> exact ⟨rfl, rfl⟩
    have hlt := hs.sound.decls _ a (hdecls ▸ ha)
    obtain ⟨k, e, hlater, hetype, he⟩ := hs.storage_later hd htype hsignature (hdecls ▸ ha) (hvoid a hlt hnone)
    exact ⟨k, e, hlater, hetype, by rw [hdecls, hwidens.follow hs.sound.closed hlt, he]⟩
  · have hi : i < s.typing.registry.size := by
      by_contra hge
      have hplain := hnew i (Nat.not_lt.mp hge)
      simp [hget, Ty.isComposite] at hplain
    rw [hwidens.get i hi] at hget
    have hlt : element < s.typing.registry.size := hs.sound.closed i hi element (by simp [hget, Ty.targets])
    obtain ⟨u, k, e, hu, hnoted, hlater, hetype, he⟩ := hs.array_later hp hget (hvoid element hlt hnone)
    exact ⟨u, hu, by rw [htypes, hnoted], k, e, hlater, hetype, by rw [hdecls, hwidens.follow hs.sound.closed hlt, he]⟩
  · obtain ⟨a, ha⟩ := hdecl d hd
    refine ⟨a, ha, or_iff_not_imp_right.mpr fun hnone => ?_⟩
    refine Registry.word_le_bytes h.solid fun u hu => ⟨?_, h.form_ne_named ha hu⟩
    simpa using fun hvoid => hnone ⟨u, hu, hvoid⟩

/-- A variable of a type that is declared later, as void. -/
def voidVariable : String := "var x: t; typ t: void;"

/-- The program is accepted, and the variable has a void type of no bytes. -/
theorem voidVariable_accepted : ∃ p b t d a, (Program.parse voidVariable).1 = .ok p ∧ p.bind = .ok b ∧
    p.typing b = .ok t ∧ d ∈ p.decls ∧ d.isStorage ∧ t.declTypes[d.id]? = some a ∧
    t.registry.isVoid a = true ∧ t.registry.bytes a = 0 := by
  have h : ((Program.parse voidVariable).1.toOption.bind fun p => p.bind.toOption.bind fun b =>
      (p.typing b).toOption.bind fun t => p.decls.head?.bind fun d => t.declTypes[d.id]?.map fun a =>
        (d.isStorage, t.registry.isVoid a, t.registry.bytes a)) = some (true, true, 0) := by decide +kernel
  simp only [Option.bind_eq_some_iff, Option.map_eq_some_iff, Prod.mk.injEq] at h
  obtain ⟨p, hp, b, hb, t, ht, d, hd, a, ha, hstorage, hvoid, hbytes⟩ := h
  exact ⟨p, b, t, d, a, toOption_eq_some.mp hp, toOption_eq_some.mp hb, toOption_eq_some.mp ht,
    mem_of_head? hd, hstorage, ha, hvoid, hbytes⟩

/-- The variable is void by the later declaration. -/
theorem voidVariable_named_later : ∃ p b t, (Program.parse voidVariable).1 = .ok p ∧ p.bind = .ok b ∧
    p.typing b = .ok t ∧ ∀ d, p.Has (.decl d) → d.HasRole .variable ∨ d.HasRole .component →
      ∃ a, t.declTypes[d.id]? = some a ∧ (t.registry.isVoid a = true → p.NamedLater t (.decl d) a) := by
  have h : ((Program.parse voidVariable).1.toOption.bind fun p => p.bind.toOption.bind fun b =>
      (p.typing b).toOption.map fun t => t.registry.size) = some 5 := by decide +kernel
  simp only [Option.bind_eq_some_iff, Option.map_eq_some_iff] at h
  obtain ⟨p, hp, b, hb, t, ht, -⟩ := h
  rw [toOption_eq_some] at hp hb ht
  exact ⟨p, b, t, hp, hb, ht, (void_only_named_later hp hb ht).2.1⟩

end Program

end MmixCompiler
