import MmixCompiler.Proofs.Tree.Code
import MmixCompiler.Proofs.Types.Inference
import MmixCompiler.Proofs.Types.Registry

/-! The tables of typing. They and the registry only grow, and what has been found stays; the type of a
node is found once and noted. -/

namespace MmixCompiler

open Infer List

variable {bindings : Bindings} {t : TypeExpr} {a : TypeId} {d : Decl}

/-- Faults that typing may find. -/
def SemanticFault.Static : SemanticFault → Prop
  | .inaccessible _ => False
  | _ => True

/-- Faults that typing may find in a single node. That a type contains itself is found of all types together. -/
def SemanticFault.Local : SemanticFault → Prop
  | .inaccessible _ | .type (.containsItself _) => False
  | _ => True

theorem SemanticFault.Local.static {f : SemanticFault} (h : f.Local) : f.Static := by
  cases f with
  | inaccessible => exact h
  | _ => trivial

def Decl.isType : Decl → Bool
  | .typed _ .type .. => true
  | _ => false

def TypeExpr.isComposite : TypeExpr → Bool
  | .arr .. | .record .. => true
  | _ => false

/-- A type is what the expression says: the type of what a name is bound to, a pointer, an array of a constant
length, or a record. -/
def TypeExpr.Denotes (bindings : Bindings) (T : Typing) (a : TypeId) : TypeExpr → Prop
  | .atom _ type => a = type.id
  | .named mark _ => ∃ d, bindings[mark.id]? = some d ∧ T.declTypes[d.id]? = some a
  | .ptr _ target => ∃ c, T.typeTypes[target.id]? = some c ∧ T.registry.get a = .ptr c
  | .arr _ length element => ∃ n c, length.constant = .ok n ∧ T.typeTypes[element.id]? = some c ∧
      T.registry.get a = .arr n c
  | .record _ components => ∃ fields, T.registry.get a = .record fields ∧
      List.Forall₂ (fun d f => d.name = f.1 ∧ T.declTypes[Decl.id d]? = some f.2) components fields

theorem TypeExpr.Denotes.mono {T T' : Typing} (h : t.Denotes bindings T a) (hr : T.registry.Extends T'.registry)
    (hdecls : ∀ (id : NodeId) c, T.declTypes[id]? = some c → T'.declTypes[id]? = some c)
    (htypes : ∀ (id : NodeId) c, T.typeTypes[id]? = some c → T'.typeTypes[id]? = some c) :
    t.Denotes bindings T' a := by
  cases t with
  | atom => exact h
  | named =>
    obtain ⟨d, hd, ha⟩ := h
    exact ⟨d, hd, hdecls _ a ha⟩
  | ptr mark target =>
    obtain ⟨c, hc, hget⟩ := h
    exact ⟨c, htypes _ c hc, hr.get_of_ne_named hget (by simp) (by simp)⟩
  | arr mark length element =>
    obtain ⟨n, c, hn, hc, hget⟩ := h
    exact ⟨n, c, hn, htypes _ c hc, hr.get_of_ne_named hget (by simp) (by simp)⟩
  | record mark components =>
    obtain ⟨fields, hget, hfields⟩ := h
    exact ⟨fields, hr.get_of_ne_named hget (by simp) (by simp),
      hfields.imp fun d f hf => ⟨hf.1, hdecls _ f.2 hf.2⟩⟩

theorem TypeExpr.Denotes.isComposite {T : Typing} (h : t.Denotes bindings T a)
    (ht : t.isComposite) : (T.registry.get a).isComposite := by
  cases t with
  | atom | named | ptr => cases ht
  | arr =>
    obtain ⟨n, c, -, -, hget⟩ := h
    rw [hget]
    rfl
  | record =>
    obtain ⟨fields, hget, -⟩ := h
    rw [hget]
    rfl

/-- The type is an array, and when it was entered, after `r` and before `r'`, its element type was not
void. -/
def EnteredArray (r r' : Registry) (a : TypeId) : Prop :=
  ∃ n element between, r'.get a = .arr n element ∧ r.Widens between ∧ between.Extends r' ∧ between.Closed ∧
    element < between.size ∧ between.isVoid element = false

theorem EnteredArray.mono {r₀ r r' r₁ : Registry} (h : EnteredArray r r' a)
    (hbefore : r₀.Widens r) (hafter : r'.Extends r₁) : EnteredArray r₀ r₁ a := by
  obtain ⟨n, e, between, hget, hr, hr', hclosed, hlt, hvoid⟩ := h
  refine ⟨n, e, between, ?_, hbefore.trans hr, hr'.trans hafter, hclosed, hlt, hvoid⟩
  exact hafter.get_of_ne_named hget (by simp) (by simp)

namespace Typer

/-- Every type in the tables is entered, after its parts unless it is named, and every type declaration has a
named type of its own, which is defined by the type it declares. -/
structure Sound (p : Program) (s : Typer) : Prop where
  base : 4 ≤ s.typing.registry.size
  atoms : ∀ i < 4, s.typing.registry.get i = Registry.initial.get i
  closed : s.typing.registry.Closed
  solid : ∀ i, (s.typing.registry.get i).Solid
  before : ∀ i, (∀ name d, s.typing.registry.get i ≠ .named name d) → ∀ j ∈ (s.typing.registry.get i).targets, j < i
  decls : ∀ (id : NodeId) t, s.typing.declTypes[id]? = some t → t < s.typing.registry.size
  types : ∀ (id : NodeId) t, s.typing.typeTypes[id]? = some t → t < s.typing.registry.size
  names : ∀ d, p.Has (.decl d) → d.isType → ∀ t, s.typing.declTypes[d.id]? = some t →
    ∃ definition, s.typing.registry.get t = .named d.name definition ∧
      ∀ c, definition = some c → s.typing.typeTypes[d.type.id]? = some c
  single : ∀ d e, p.Has (.decl d) → p.Has (.decl e) → d.isType → e.isType → ∀ t,
    s.typing.declTypes[d.id]? = some t → s.typing.declTypes[e.id]? = some t → d = e

/-- What resolution has added: entries for numbers in `own`, and types. -/
structure Grows (p : Program) (bindings : Bindings) (own : NodeId → Prop) (s s' : Typer) : Prop where
  registry : s.typing.registry.Extends s'.typing.registry
  decls : ∀ (id : NodeId) t, s.typing.declTypes[id]? = some t → s'.typing.declTypes[id]? = some t
  types : ∀ (id : NodeId) t, s.typing.typeTypes[id]? = some t → s'.typing.typeTypes[id]? = some t
  otherDecls : ∀ id : NodeId, ¬ own id → s'.typing.declTypes[id]? = s.typing.declTypes[id]?
  otherTypes : ∀ id : NodeId, ¬ own id → s'.typing.typeTypes[id]? = s.typing.typeTypes[id]?
  exprs : s'.typing.exprTypes = s.typing.exprTypes
  fields : s'.typing.fieldIndices = s.typing.fieldIndices
  denotes : ∀ t, p.Has (.type t) → s.typing.typeTypes[t.id]? = none → ∀ a,
    s'.typing.typeTypes[t.id]? = some a → t.Denotes bindings s'.typing a
  declared : ∀ d, p.Has (.decl d) → d.isType = false → s.typing.declTypes[d.id]? = none → ∀ a,
    s'.typing.declTypes[d.id]? = some a → s'.typing.typeTypes[d.type.id]? = some a
  composites : s.composites <:+ s'.composites
  noted : ∀ i, s.typing.registry.size ≤ i → (s'.typing.registry.get i).isComposite →
    ∃ position, (i, position) ∈ s'.composites
  names : ∀ i < s.typing.registry.size, s'.namedDecls.lookup i = s.namedDecls.lookup i

namespace Grows

variable {p : Program} {bindings : Bindings} {own own' : NodeId → Prop} {s s' s'' : Typer}

theorem refl (s : Typer) : Grows p bindings own s s where
  registry := .refl _
  decls _ _ h := h
  types _ _ h := h
  otherDecls _ _ := rfl
  otherTypes _ _ := rfl
  exprs := rfl
  fields := rfl
  denotes t _ hnone a ha := by simp [hnone] at ha
  declared d _ _ hnone a ha := by simp [hnone] at ha
  composites := suffix_refl _
  noted i hle hi := by simp [Registry.get_of_size_le hle, Ty.isComposite] at hi
  names _ _ := rfl

theorem mono (h : Grows p bindings own s s') (hown : ∀ id, own id → own' id) : Grows p bindings own' s s' :=
  { h with
    otherDecls := fun id hid => h.otherDecls id fun ho => hid (hown id ho)
    otherTypes := fun id hid => h.otherTypes id fun ho => hid (hown id ho) }

theorem trans (h : Grows p bindings own s s') (h' : Grows p bindings own s' s'') : Grows p bindings own s s'' where
  registry := h.registry.trans h'.registry
  decls id t ht := h'.decls id t (h.decls id t ht)
  types id t ht := h'.types id t (h.types id t ht)
  otherDecls id hid := (h'.otherDecls id hid).trans (h.otherDecls id hid)
  otherTypes id hid := (h'.otherTypes id hid).trans (h.otherTypes id hid)
  exprs := h'.exprs.trans h.exprs
  fields := h'.fields.trans h.fields
  denotes t ht hnone a ha := by
    cases hmid : s'.typing.typeTypes[t.id]? with
    | none => exact h'.denotes t ht hmid a ha
    | some b =>
      obtain rfl : b = a := Option.some.inj ((h'.types _ b hmid).symm.trans ha)
      exact (h.denotes t ht hnone b hmid).mono h'.registry h'.decls h'.types
  declared d hd htype hnone a ha := by
    cases hmid : s'.typing.declTypes[d.id]? with
    | none => exact h'.declared d hd htype hmid a ha
    | some b =>
      obtain rfl : b = a := Option.some.inj ((h'.decls _ b hmid).symm.trans ha)
      exact h'.types _ b (h.declared d hd htype hnone b hmid)
  composites := h.composites.trans h'.composites
  noted i hle hi := by
    rcases Nat.lt_or_ge i s'.typing.registry.size with hmid | hmid
    · obtain ⟨position, hmem⟩ := h.noted i hle (h'.registry.isComposite hmid hi)
      exact ⟨position, h'.composites.subset hmem⟩
    · exact h'.noted i hmid hi
  names i hi := (h'.names i (Nat.lt_of_lt_of_le hi h.registry.size)).trans (h.names i hi)

end Grows

/-- An array or a record is the type of a type expression, and a named type that of a declaration. -/
structure Accounts (p : Program) (s : Typer) (i : TypeId) : Prop where
  composite : (s.typing.registry.get i).isComposite → ∃ t, p.Has (.type t) ∧ t.isComposite ∧
    s.typing.typeTypes[t.id]? = some i
  named : ∀ name definition, s.typing.registry.get i = .named name definition →
    ∃ d, p.Has (.decl d) ∧ d.isType ∧ s.typing.declTypes[d.id]? = some i

theorem Accounts.mono {p : Program} {own : NodeId → Prop} {s s' : Typer} {i : TypeId} (h : s.Accounts p i)
    (hi : i < s.typing.registry.size) (hgrows : Grows p bindings own s s') : s'.Accounts p i := by
  refine ⟨fun hcomposite => ?_, fun name definition hname => ?_⟩
  · obtain ⟨t, ht, hcomposite, hnoted⟩ := h.composite (hgrows.registry.isComposite hi hcomposite)
    exact ⟨t, ht, hcomposite, hgrows.types _ i hnoted⟩
  · have hold : ∃ old, s.typing.registry.get i = .named name old := by
      rcases hgrows.registry.get i hi with heq | ⟨name', old, d, hold, hnew⟩
      · exact ⟨definition, heq.symm.trans hname⟩
      · cases hnew.symm.trans hname
        exact ⟨old, hold⟩
    obtain ⟨old, hold⟩ := hold
    obtain ⟨d, hd, htype, hnoted⟩ := h.named name old hold
    exact ⟨d, hd, htype, hgrows.decls _ i hnoted⟩

theorem accounts_of_size_le {p : Program} {s : Typer} {i : TypeId} (h : s.typing.registry.size ≤ i) :
    s.Accounts p i := by
  have hget := Registry.get_of_size_le h
  exact ⟨by simp [hget, Ty.isComposite], by simp [hget]⟩

/-- The types that have been added are accounted for, except for `o` if it is one. -/
def Lists (p : Program) (o : Option TypeId) (s s' : Typer) : Prop :=
  ∀ i, s.typing.registry.size ≤ i → o = some i ∨ s'.Accounts p i

namespace Lists

variable {p : Program} {bindings : Bindings} {own : NodeId → Prop} {o : Option TypeId} {s s' s'' : Typer}

theorem of_size_le (h : s'.typing.registry.size ≤ s.typing.registry.size) : Lists p o s s' := fun _ hle =>
  .inr (accounts_of_size_le (Nat.le_trans h hle))

theorem trans (h : Lists p none s s') (h' : Lists p o s' s'') (hgrows : Grows p bindings own s' s'') :
    Lists p o s s'' := by
  intro i hle
  rcases Nat.lt_or_ge i s'.typing.registry.size with hmid | hmid
  · exact .inr (((h i hle).resolve_left (by simp)).mono hmid hgrows)
  · exact h' i hmid

theorem open_ (h : Lists p none s s') : Lists p o s s' := fun i hle =>
  .inr ((h i hle).resolve_left (by simp))

end Lists

/-- A type has been found, and what has been added to find it. Nothing that was there is different. -/
structure Finds (p : Program) (bindings : Bindings) (own : NodeId → Prop) (s : Typer) (a : TypeId)
    (s' : Typer) : Prop where
  grows : s.Grows p bindings own s'
  widens : s.typing.registry.Widens s'.typing.registry
  arrays : ∀ mark length element, p.Has (.type (.arr mark length element)) →
    s.typing.typeTypes[mark.id]? = none → ∀ a, s'.typing.typeTypes[mark.id]? = some a →
    EnteredArray s.typing.registry s'.typing.registry a
  sound : s'.Sound p
  valid : a < s'.typing.registry.size

end Typer

section
variable {p : Program} {bindings : Bindings} {own own' : NodeId → Prop} {s s' : Typer} {a b : TypeId}

open Typer

namespace Typer.Finds

theorem refl (hs : s.Sound p) (ha : a < s.typing.registry.size) : s.Finds p bindings own a s :=
  ⟨.refl s, .refl _, fun _ _ _ _ hnone a ha => by simp [hnone] at ha, hs, ha⟩

theorem trans {s'' : Typer} (h : s.Finds p bindings own a s') (h' : s'.Finds p bindings own b s'') :
    s.Finds p bindings own b s'' := by
  refine ⟨h.grows.trans h'.grows, h.widens.trans h'.widens, fun mark length element ht hnone c hc => ?_,
    h'.sound, h'.valid⟩
  cases hmid : s'.typing.typeTypes[mark.id]? with
  | none => exact (h'.arrays mark length element ht hmid c hc).mono h.widens (.refl _)
  | some d =>
    obtain rfl : d = c := Option.some.inj ((h'.grows.types _ d hmid).symm.trans hc)
    exact (h.arrays mark length element ht hnone d hmid).mono (.refl _) h'.grows.registry

theorem mono (h : s.Finds p bindings own a s') (hown : ∀ id, own id → own' id) : s.Finds p bindings own' a s' :=
  { h with grows := h.grows.mono hown }

theorem add (hs : s.Sound p) {y : Ty} (hy : ∀ j ∈ y.targets, j < s.typing.registry.size) (hsolid : y.Solid)
    {names : List (TypeId × Decl)} {composites : List (TypeId × Position)}
    (hcomposites : s.composites <:+ composites)
    (hnoted : y.isComposite → ∃ position, (s.typing.registry.size, position) ∈ composites)
    (hnames : ∀ i < s.typing.registry.size, names.lookup i = s.namedDecls.lookup i) :
    s.Finds p bindings own s.typing.registry.size
      ⟨{ s.typing with registry := (s.typing.registry.add y).2 }, names, composites⟩ := by
  have hkept : ∀ i < s.typing.registry.size, (s.typing.registry.add y).2.get i = s.typing.registry.get i :=
    fun i hi => by rw [Registry.get_add, if_neg (Nat.ne_of_lt hi)]
  have hlt : ∀ t < s.typing.registry.size, t < (s.typing.registry.add y).2.size := fun t ht => by
    rw [Registry.size_add]
    omega
  refine ⟨⟨.add _ _, fun _ _ h => h, fun _ _ h => h, fun _ _ => rfl, fun _ _ => rfl, rfl, rfl, ?_, ?_,
    hcomposites, fun i hle hi => ?_, hnames⟩, ⟨by simp, hkept⟩, fun _ _ _ _ hnone a ha => by simp [hnone] at ha,
    ⟨by simp only [Registry.size_add]; have := hs.base; omega, fun i hi => by
        rw [hkept i (Nat.lt_of_lt_of_le hi hs.base), hs.atoms i hi],
      hs.closed.add hy, fun i => ?_, fun i hi j hj => ?_, fun id t ht => hlt t (hs.decls id t ht),
      fun id t ht => hlt t (hs.types id t ht), fun d hd htype t ht => ?_, hs.single⟩, by simp⟩
  · intro t _ hnone a ha
    simp [hnone] at ha
  · intro d _ _ hnone a ha
    simp [hnone] at ha
  · rw [Registry.get_add] at hi
    split at hi
    · next heq => exact heq ▸ hnoted hi
    · simp [Registry.get_of_size_le hle, Ty.isComposite] at hi
  · rw [Registry.get_add]
    split
    · exact hsolid
    · exact hs.solid i
  · rw [Registry.get_add] at hi hj
    split at hj
    · next heq => exact heq ▸ hy j hj
    · next hne =>
      rw [if_neg hne] at hi
      exact hs.before i hi j hj
  · obtain ⟨definition, hget, hdefined⟩ := hs.names d hd htype t ht
    exact ⟨definition, (hkept t (hs.decls _ t ht)).trans hget, hdefined⟩

end Typer.Finds

theorem Typer.Lists.add {y : Ty} {o : Option TypeId}
    (ho : o = some s.typing.registry.size ∨ y.isComposite = false ∧ ∀ name d, y ≠ .named name d)
    {typing : Typing} (hregistry : typing.registry = (s.typing.registry.add y).2)
    {names : List (TypeId × Decl)} {composites : List (TypeId × Position)} :
    s.Lists p o ⟨typing, names, composites⟩ := by
  intro i hle
  have hget : typing.registry.get i = if i = s.typing.registry.size then y else s.typing.registry.get i := by
    rw [hregistry, Registry.get_add]
  split at hget
  · next heq =>
    subst heq
    apply ho.imp_right
    rintro ⟨hcomposite, hname⟩
    refine ⟨fun h => ?_, fun name d h => ?_⟩
    · simp [hget, hcomposite] at h
    · exact absurd (hget.symm.trans h) (hname name d)
  · rw [Registry.get_of_size_le hle] at hget
    exact .inr ⟨by simp [hget, Ty.isComposite], by simp [hget]⟩

theorem yields_ptr (bindings : Bindings) (own : NodeId → Prop) {fault : SemanticFault → Prop} (hs : s.Sound p)
    {target : TypeId} (htarget : target < s.typing.registry.size) :
    Yields (Infer.ptr target) s (fun a s' => s.Finds p bindings own a s' ∧ s.Lists p none s' ∧
      s'.typing.registry.get a = .ptr target ∧
        s' = { s with typing := { s.typing with registry := s'.typing.registry } })
      fault := by
  rw [Infer.ptr, yields_modifyGet]
  rcases s.typing.registry.ptr_cases target with ⟨heq, hlt, hget⟩ | heq
  · simp only [heq]
    exact ⟨.refl hs hlt, .of_size_le (Nat.le_refl _), hget, trivial⟩
  · simp only [heq]
    exact ⟨.add hs (by simpa [Ty.targets] using htarget) (by trivial) (suffix_refl _) (by simp [Ty.isComposite])
        fun _ _ => rfl, .add (.inr ⟨rfl, by simp⟩) rfl, by simp [Registry.get_add], trivial⟩

theorem yields_composite (bindings : Bindings) (own : NodeId → Prop) (hs : s.Sound p) {position : Position} {y : Ty}
    (hy : ∀ j ∈ y.targets, j < s.typing.registry.size) (hsolid : y.Solid) :
    Yields (composite position y) s (fun a s' => s.Finds p bindings own a s' ∧ s.Lists p (some a) s' ∧
      s'.typing.registry.get a = y) SemanticFault.Local := by
  simp only [composite, Infer.add, yields_bind, yields_modifyGet, yields_modify, yields_pure]
  exact ⟨.add hs hy hsolid (suffix_cons _ _) (fun _ => ⟨position, mem_cons_self⟩) fun _ _ => rfl,
    .add (.inl rfl) rfl, by simp [Registry.get_add]⟩

theorem getElem?_note {α : Type} {table : Std.TreeMap NodeId α} {id i : NodeId} {x : α} :
    (table.insert id x)[i]? = if id = i then some x else table[i]? := by
  simp [Std.TreeMap.getElem?_insert]

theorem getElem?_note_of_ne {α : Type} {table : Std.TreeMap NodeId α} {id i : NodeId} {x : α} (h : i ≠ id) :
    (table.insert id x)[i]? = table[i]? := by
  rw [getElem?_note, if_neg h.symm]

theorem getElem?_note_of_none {table : Std.TreeMap NodeId TypeId} {id i : NodeId}
    (hnone : table[id]? = none) (h : table[i]? = some b) : (table.insert id a)[i]? = some b := by
  rw [getElem?_note, if_neg]
  · exact h
  · rintro rfl
    simp [hnone] at h

theorem lt_of_note {table : Std.TreeMap NodeId TypeId} {id i : NodeId} {n : Nat} (ha : a < n)
    (h : ∀ (id : NodeId) t, table[id]? = some t → t < n) (hb : (table.insert id a)[i]? = some b) : b < n := by
  rw [getElem?_note] at hb
  split at hb
  · exact Option.some.inj hb ▸ ha
  · exact h i b hb

theorem Typer.Finds.noteType (hp : p.Numbered) (h : s.Finds p bindings own a s') (ht : p.Has (.type t))
    (hdenotes : t.Denotes bindings s'.typing a)
    (harray : ∀ mark length element, t = .arr mark length element → EnteredArray s.typing.registry s'.typing.registry a)
    (hnone : s.typing.typeTypes[t.id]? = none) (hown : ∀ id, own id → own' id) (hid : own' t.id)
    (hnew : ¬ own t.id) :
    s.Finds p bindings own' a
      { s' with typing := { s'.typing with typeTypes := s'.typing.typeTypes.insert t.id a } } := by
  have hnone' : s'.typing.typeTypes[t.id]? = none := (h.grows.otherTypes t.id hnew).trans hnone
  have hkept : ∀ (id : NodeId) c, s'.typing.typeTypes[id]? = some c →
      (s'.typing.typeTypes.insert t.id a)[id]? = some c := fun _ _ => getElem?_note_of_none hnone'
  have hgrows := h.grows.mono hown
  refine ⟨⟨hgrows.registry, hgrows.decls, fun i b hb => hkept i b (hgrows.types i b hb),
    hgrows.otherDecls, fun i hne => ?_, hgrows.exprs, hgrows.fields, fun u hu hunone b hb => ?_,
    fun d hd htype hdnone b hb => hkept _ b (hgrows.declared d hd htype hdnone b hb), hgrows.composites,
    hgrows.noted, hgrows.names⟩, h.widens, fun mark length element hu hunone b hb => ?_,
    { h.sound with
      types := fun _ _ => lt_of_note h.valid h.sound.types
      names := fun d hd htype c hc => ?_ }, h.valid⟩
  · rw [getElem?_note, if_neg, hgrows.otherTypes i hne]
    rintro rfl
    exact hne hid
  · rw [getElem?_note] at hb
    split at hb
    · next heq =>
      cases hp.eq_of_id ht hu heq
      cases hb
      exact hdenotes.mono (.refl _) (fun _ _ h => h) hkept
    · exact (hgrows.denotes u hu hunone b hb).mono (.refl _) (fun _ _ h => h) hkept
  · rw [getElem?_note] at hb
    split at hb
    · next heq =>
      cases hp.eq_of_id ht hu heq
      cases hb
      exact harray mark length element rfl
    · exact h.arrays mark length element hu hunone b hb
  · obtain ⟨definition, hget, hdefined⟩ := h.sound.names d hd htype c hc
    exact ⟨definition, hget, fun c heq => hkept _ c (hdefined c heq)⟩

theorem Typer.Finds.noteDecl (hp : p.Numbered) (h : s.Finds p bindings own a s') (hd : p.Has (.decl d))
    (hname : d.isType → s.typing.registry.size ≤ a ∧ s'.typing.registry.get a = .named d.name none ∧
      s'.typing.declTypes = s.typing.declTypes)
    (hdeclared : d.isType = false → s'.typing.typeTypes[d.type.id]? = some a) (hs : s.Sound p)
    (hnone : s.typing.declTypes[d.id]? = none) (hown : ∀ id, own id → own' id) (hid : own' d.id)
    (hnew : ¬ own d.id) :
    s.Finds p bindings own' a
      { s' with typing := { s'.typing with declTypes := s'.typing.declTypes.insert d.id a } } := by
  have hnone' : s'.typing.declTypes[d.id]? = none := (h.grows.otherDecls d.id hnew).trans hnone
  -- no declaration of a type has had this type before
  have hother : d.isType → ∀ e, s'.typing.declTypes[Decl.id e]? ≠ some a := fun htype e he => by
    obtain ⟨hle, -, heq⟩ := hname htype
    rw [heq] at he
    exact absurd (hs.decls _ a he) (Nat.not_lt.mpr hle)
  have hkept : ∀ (id : NodeId) c, s'.typing.declTypes[id]? = some c →
      (s'.typing.declTypes.insert d.id a)[id]? = some c := fun _ _ => getElem?_note_of_none hnone'
  have hgrows := h.grows.mono hown
  refine ⟨{ hgrows with
      decls := fun i b hb => hkept i b (hgrows.decls i b hb)
      otherDecls := fun i hne => ?_
      denotes := fun t ht htnone b hb => (hgrows.denotes t ht htnone b hb).mono (.refl _) hkept fun _ _ h => h
      declared := fun e he htype henone b hb => ?_ }, h.widens, h.arrays,
    { h.sound with
      decls := fun _ _ => lt_of_note h.valid h.sound.decls
      names := fun e he htype t ht => ?_
      single := fun e f he hf htype htype' t ht ht' => ?_ }, h.valid⟩
  · rw [getElem?_note, if_neg, hgrows.otherDecls i hne]
    rintro rfl
    exact hne hid
  · rw [getElem?_note] at hb
    split at hb
    · next heq =>
      cases hp.eq_of_id hd he heq
      cases hb
      exact hdeclared htype
    · exact hgrows.declared e he htype henone b hb
  · rw [getElem?_note] at ht
    split at ht
    · next heq =>
      cases hp.eq_of_id hd he heq
      cases ht
      exact ⟨none, (hname htype).2.1, by simp⟩
    · exact h.sound.names e he htype t ht
  · rw [getElem?_note] at ht ht'
    split at ht <;> split at ht'
    · next heq heq' =>
      cases hp.eq_of_id hd he heq
      cases hp.eq_of_id hd hf heq'
      rfl
    · next heq _ =>
      cases hp.eq_of_id hd he heq
      cases ht
      exact absurd ht' (hother htype f)
    · next _ heq =>
      cases hp.eq_of_id hd hf heq
      cases ht'
      exact absurd ht (hother htype' e)
    · exact h.sound.single e f he hf htype htype' t ht ht'

theorem yields_ofTypeOnce (hp : p.Numbered) (hs : s.Sound p) (ht : p.Has (.type t))
    {find : Infer TypeId} (hfind : Yields find s (fun a s' => s.Finds p bindings own a s' ∧
      s.Lists p (if t.isComposite then some a else none) s' ∧ t.Denotes bindings s'.typing a ∧
      ∀ mark length element, t = .arr mark length element →
        EnteredArray s.typing.registry s'.typing.registry a) SemanticFault.Local)
    (hown : ∀ id, own id → own' id) (hid : own' t.id) (hnew : ¬ own t.id) :
    Yields (ofTypeOnce t.id find) s (fun a s' => s.Finds p bindings own' a s' ∧ s.Lists p none s' ∧
      s'.typing.typeTypes[t.id]? = some a) SemanticFault.Local := by
  simp only [ofTypeOnce, yields_bind, yields_get]
  split
  · next a ha => exact ⟨.refl hs (hs.types _ a ha), .of_size_le (Nat.le_refl _), ha⟩
  · next hnone =>
    apply hfind.bind
    rintro a s₁ ⟨h, hlists, hdenotes, harray⟩
    simp only [yields_bind, yields_modify, yields_pure]
    have hnone' : s₁.typing.typeTypes[t.id]? = none := (h.grows.otherTypes t.id hnew).trans hnone
    refine ⟨h.noteType hp ht hdenotes harray hnone hown hid hnew, fun i hle => .inr ?_, by simp⟩
    rcases hlists i hle with heq | ⟨hcomposite, hnamed⟩
    · split at heq
      · next hopen =>
        cases heq
        refine ⟨fun _ => ⟨t, ht, hopen, by simp⟩, fun name d hname => ?_⟩
        have hcomposite := hdenotes.isComposite hopen
        rw [hname] at hcomposite
        cases hcomposite
      · cases heq
    · refine ⟨fun hi => ?_, hnamed⟩
      obtain ⟨u, hu, hucomposite, hnoted⟩ := hcomposite hi
      exact ⟨u, hu, hucomposite, getElem?_note_of_none hnone' hnoted⟩

theorem yields_ofDeclOnce (hp : p.Numbered) (hs : s.Sound p) (hd : p.Has (.decl d))
    {find : Infer TypeId} (hfind : Yields find s (fun a s' => s.Finds p bindings own a s' ∧
      s.Lists p (if d.isType then some a else none) s' ∧
      (d.isType → s.typing.registry.size ≤ a ∧ s'.typing.registry.get a = .named d.name none ∧
        s'.typing.declTypes = s.typing.declTypes) ∧
      (d.isType = false → s'.typing.typeTypes[d.type.id]? = some a)) SemanticFault.Local)
    (hown : ∀ id, own id → own' id) (hid : own' d.id) (hnew : ¬ own d.id) :
    Yields (ofDeclOnce d.id find) s (fun a s' => s.Finds p bindings own' a s' ∧ s.Lists p none s' ∧
      s'.typing.declTypes[d.id]? = some a) SemanticFault.Local := by
  simp only [ofDeclOnce, yields_bind, yields_get]
  split
  · next a ha => exact ⟨.refl hs (hs.decls _ a ha), .of_size_le (Nat.le_refl _), ha⟩
  · next hnone =>
    apply hfind.bind
    rintro a s₁ ⟨h, hlists, hname, hdeclared⟩
    simp only [yields_bind, yields_modify, yields_pure]
    have hnone' : s₁.typing.declTypes[d.id]? = none := (h.grows.otherDecls d.id hnew).trans hnone
    refine ⟨h.noteDecl hp hd hname hdeclared hs hnone hown hid hnew, fun i hle => .inr ?_, by simp⟩
    rcases hlists i hle with heq | ⟨hcomposite, hnamed⟩
    · split at heq
      · next htype =>
        cases heq
        refine ⟨fun hcomposite => ?_, fun _ _ _ => ⟨d, hd, htype, by simp⟩⟩
        simp [(hname htype).2.1, Ty.isComposite] at hcomposite
      · cases heq
    · refine ⟨hcomposite, fun name definition hget => ?_⟩
      obtain ⟨e, he, htype, hnoted⟩ := hnamed name definition hget
      exact ⟨e, he, htype, getElem?_note_of_none hnone' hnoted⟩

theorem yields_named (bindings : Bindings) (own : NodeId → Prop) (hp : p.Numbered) (hs : s.Sound p)
    (hd : p.Has (.decl d)) (htype : d.isType) (hid : own d.id) :
    Yields (named d) s (fun a s' => s.Finds p bindings own a s' ∧ s.Lists p none s' ∧
      s'.typing.declTypes[d.id]? = some a) SemanticFault.Local := by
  have hnothing : ∀ id, (fun _ => False : NodeId → Prop) id → own id := fun _ h => h.elim
  refine yields_ofDeclOnce hp hs hd ?_ hnothing hid (fun h => h)
  simp only [Infer.add, yields_bind, yields_modifyGet, yields_modify, yields_pure]
  refine ⟨.add hs (by simp [Ty.targets]) (by trivial) (suffix_refl _) (by simp [Ty.isComposite]) fun i hi => ?_,
    .add (.inl (by rw [if_pos htype]; rfl)) rfl, ?_⟩
  · rw [lookup_cons, Registry.fst_add, beq_false_of_ne (Nat.ne_of_lt hi)]
  · exact ⟨fun _ => ⟨Nat.le_refl _, by simp [Registry.get_add], trivial⟩, by simp [htype]⟩

end

end MmixCompiler
