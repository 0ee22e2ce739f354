import MmixCompiler.Proofs.Types.Circles
import MmixCompiler.Proofs.Types.Storage

/-! Types that contain themselves, as they are declared. A program with such a type is refused, and the error names a
type declaration. It is the first from which a circle is reached, and need not be on the circle. -/

namespace MmixCompiler

open Infer Typer Relation

/-- A type has another as a part, as they are written. Nothing is a part through a pointer. -/
inductive TypeExpr.HasPart (b : Bindings) : TypeExpr → TypeExpr → Prop where
  | definition {mark : Mark} {name : String} {d : Decl} (h : b[mark.id]? = some d) : HasPart b (.named mark name) d.type
  | element {mark : Mark} {length : Expr} {element : TypeExpr} : HasPart b (.arr mark length element) element
  | component {mark : Mark} {components : List Decl} {d : Decl} (h : d ∈ components) :
      HasPart b (.record mark components) d.type

namespace Decl

variable (b : Bindings)

/-- Among the parts of a declared type there is a name that is bound to the other declaration. -/
def Contains (d e : Decl) : Prop :=
  ∃ mark name, ReflTransGen (TypeExpr.HasPart b) d.type (.named mark name) ∧ b[mark.id]? = some e

def ContainsItself (d : Decl) : Prop := d.Contains b d

/-- A declared type contains itself, or one that does. -/
def LeadsToCircle (d : Decl) : Prop := d.ContainsItself b ∨ ∃ e, d.Contains b e ∧ e.ContainsItself b

end Decl

/-- A named type that leads to a circle without being on it comes after one that contains itself. -/
def Registry.CirclesFirst (r : Registry) : Prop :=
  ∀ s, r.isNamed s → r.LeadsToCircle s → ¬ r.ContainsItself s → ∃ u < s, r.isNamed u ∧ r.ContainsItself u

/-- A declared type that leads to a circle without being on it is declared after one that contains itself. -/
def Program.CirclesFirst (p : Program) (b : Bindings) : Prop :=
  ∀ before e after, p.allDecls = before ++ e :: after → e.isType → e.LeadsToCircle b → ¬ e.ContainsItself b →
    ∃ f ∈ before, f.isType ∧ f.ContainsItself b

theorem Registry.containsItself_iff_circlesFirst {r : Registry} {t : TypeId} (h : r.circle? = some t) :
    r.ContainsItself t ↔ r.CirclesFirst := by
  obtain ⟨hnamed, hleads, hfirst⟩ := circle?_eq_some_iff.mp h
  constructor
  · intro ht s hs hsleads hself
    rcases Nat.lt_trichotomy s t with hlt | rfl | hlt
    · exact absurd hsleads (hfirst s hlt hs)
    · exact absurd ht hself
    · exact ⟨t, hlt, hnamed, ht⟩
  · intro hcircles
    by_contra hself
    obtain ⟨u, hlt, hu, hcircle⟩ := hcircles t hnamed hleads hself
    exact hfirst u hlt hu ⟨u, .refl, hcircle⟩

theorem Program.containsItself_iff_circlesFirst {p : Program} {b : Bindings} {before after : List Decl} {d : Decl}
    (hsplit : p.allDecls = before ++ d :: after) (htype : d.isType) (hleads : d.LeadsToCircle b)
    (hfirst : ∀ e ∈ before, e.isType → ¬ e.LeadsToCircle b) : d.ContainsItself b ↔ p.CirclesFirst b := by
  constructor
  · intro hd front e back hsplit' hetype heleads heself
    have hne : d ≠ e := fun heq => heself (heq ▸ hd)
    -- one of the two declarations stands before the other
    rcases List.append_eq_append_iff.mp (hsplit.symm.trans hsplit') with ⟨between, rfl, heq⟩ | ⟨between, rfl, heq⟩
    · rcases List.cons_eq_append_iff.mp heq with ⟨-, heq⟩ | ⟨between', rfl, -⟩
      · exact absurd (List.cons.inj heq).1.symm hne
      · exact ⟨d, by simp, htype, hd⟩
    · rcases List.cons_eq_append_iff.mp heq with ⟨-, heq⟩ | ⟨between', rfl, -⟩
      · exact absurd (List.cons.inj heq).1 hne
      · exact absurd heleads (hfirst e (by simp) hetype)
  · intro hcircles
    by_contra hself
    obtain ⟨f, hf, hftype, hcircle⟩ := hcircles before d after hsplit htype hleads hself
    exact hfirst f hf hftype (.inl hcircle)

/-- The named type of a type declaration. -/
structure Typer.Declares (p : Program) (s : Typer) (d : Decl) (a : TypeId) : Prop where
  has : p.Has (.decl d)
  type : d.isType
  noted : s.typing.declTypes[d.id]? = some a

section
variable {p : Program} {b : Bindings} {s : Typer} {d e : Decl} {a c x y : TypeId} {t u : TypeExpr}

theorem Typer.Declares.unique (hd : s.Declares p d a) (he : s.Declares p d c) : a = c :=
  Option.some.inj (hd.noted.symm.trans he.noted)

theorem TypeExpr.HasPart.has (hp : p.Formed) (hb : p.bind = .ok b) (h : t.HasPart b u) (ht : p.Has (.type t)) :
    p.Has (.type u) := by
  cases h with
  | definition h => exact ((hp.bindsUses hb).type ht h).1.type
  | element => exact ht.part (k := 0) (q := (0, .type u)) (by simp [Node.parts])
  | component h => exact (ht.component h).type

/-- A declared type that contains itself is reached. -/
def Typer.LeadsToDeclared (p : Program) (s : Typer) (x : TypeId) : Prop :=
  ∃ e c, s.Declares p e c ∧ ReflTransGen s.typing.registry.Contains x c ∧ s.typing.registry.ContainsItself c

theorem Typer.LeadsToDeclared.head (h : s.LeadsToDeclared p y) (hstep : s.typing.registry.Contains x y) :
    s.LeadsToDeclared p x := by
  obtain ⟨e, c, he, hreach, hcircle⟩ := h
  exact ⟨e, c, he, .head hstep hreach, hcircle⟩

namespace Typer.Written

section
variable (hs : s.Written p b)
include hs

theorem eq_of_declares (hd : s.Declares p d a) (he : s.Declares p e a) : d = e :=
  hs.sound.single d e hd.has he.has hd.type he.type a hd.noted he.noted

theorem isNamed_iff : s.typing.registry.isNamed a ↔ ∃ d, s.Declares p d a := by
  constructor
  · intro h
    unfold Registry.isNamed at h
    split at h
    · next hget =>
      obtain ⟨d, hd, htype, hnoted⟩ := (hs.lists a).named _ _ hget
      exact ⟨d, hd, htype, hnoted⟩
    · cases h
  · rintro ⟨d, hd⟩
    obtain ⟨definition, hget, -⟩ := hs.definition hd.has hd.type hd.noted
    simp [Registry.isNamed, hget]

end

section
variable (hp : p.Formed) (hb : p.bind = .ok b) (hs : s.Written p b)
include hp hb hs

theorem declares_of_named {mark : Mark} {name : String} (ht : p.Has (.type (.named mark name)))
    (he : b[mark.id]? = some e) : ∃ c, s.Declares p e c ∧ s.typing.typeTypes[mark.id]? = some c := by
  obtain ⟨c, hc, d, hd, hnoted⟩ := hs.types _ ht
  obtain rfl : d = e := Option.some.inj (hd.symm.trans he)
  obtain ⟨hhas, htype⟩ := (hp.bindsUses hb).type ht hd
  exact ⟨c, ⟨hhas, htype, hnoted⟩, hc⟩

/-- What a type contains is what its parts are, as they are written. -/
theorem contains_iff (ht : p.Has (.type t)) (hx : s.typing.typeTypes[t.id]? = some x) :
    s.typing.registry.Contains x y ↔ ∃ u, t.HasPart b u ∧ s.typing.typeTypes[u.id]? = some y := by
  have hdenotes := hs.denotes ht hx
  rw [Registry.contains_iff, Registry.PartOf, Registry.parts]
  cases t with
  | atom mark type =>
    have hatom : s.typing.registry.get type.id = Registry.initial.get type.id :=
      hs.sound.atoms _ (by cases type <;> decide)
    obtain rfl : x = type.id := hdenotes
    rw [hatom]
    constructor
    · cases type <;> exact fun h => by cases h
    · rintro ⟨u, hu, -⟩
      cases hu
  | named mark name =>
    obtain ⟨d, hd, hnoted⟩ := hdenotes
    obtain ⟨hhas, htype⟩ := (hp.bindsUses hb).type ht hd
    obtain ⟨definition, hget, hdefined⟩ := hs.definition hhas htype hnoted
    rw [hget, List.mem_singleton]
    constructor
    · rintro rfl
      exact ⟨d.type, .definition hd, hdefined⟩
    · rintro ⟨u, hu, hy⟩
      cases hu with
      | definition hd' =>
        cases hd.symm.trans hd'
        exact Option.some.inj (hy.symm.trans hdefined)
  | ptr mark target =>
    obtain ⟨c, -, hget⟩ := hdenotes
    rw [hget]
    constructor
    · exact fun h => by cases h
    · rintro ⟨u, hu, -⟩
      cases hu
  | arr mark length element =>
    obtain ⟨n, c, -, hc, hget⟩ := hdenotes
    rw [hget, List.mem_singleton]
    constructor
    · rintro rfl
      exact ⟨element, .element, hc⟩
    · rintro ⟨u, hu, hy⟩
      cases hu with
      | element => exact Option.some.inj (hy.symm.trans hc)
  | record mark components =>
    obtain ⟨fields, hget, hfields⟩ := hdenotes
    have hnoted : ∀ d ∈ components, ∀ y, s.typing.declTypes[d.id]? = some y →
        s.typing.typeTypes[d.type.id]? = some y := fun d hd =>
      hs.declared d (ht.component hd) (hp.isType_of_component ht hd)
    rw [hget, List.mem_map]
    constructor
    · rintro ⟨f, hf, rfl⟩
      obtain ⟨d, hd, -, hdf⟩ := exists_left_of_forall₂ hfields hf
      exact ⟨d.type, .component hd, hnoted d hd f.2 hdf⟩
    · rintro ⟨u, hu, hy⟩
      cases hu with
      | component hd =>
        obtain ⟨f, hf, -, hdf⟩ := exists_right_of_forall₂ hfields hd
        exact ⟨f, hf, Option.some.inj ((hnoted _ hd f.2 hdf).symm.trans hy)⟩

theorem reaches_of_parts (ht : p.Has (.type t)) (hx : s.typing.typeTypes[t.id]? = some x)
    (h : ReflTransGen (TypeExpr.HasPart b) t u) : p.Has (.type u) ∧
      ∃ y, s.typing.typeTypes[u.id]? = some y ∧ ReflTransGen s.typing.registry.Contains x y := by
  induction h with
  | refl => exact ⟨ht, x, hx, .refl⟩
  | tail _ hpart ih =>
    obtain ⟨hu, y, hy, hreach⟩ := ih
    have hv := hpart.has hp hb hu
    obtain ⟨z, hz, -⟩ := hs.types _ hv
    exact ⟨hv, z, hz, hreach.tail ((hs.contains_iff hp hb hu hy).mpr ⟨_, hpart, hz⟩)⟩

theorem parts_of_reaches (ht : p.Has (.type t)) (hx : s.typing.typeTypes[t.id]? = some x)
    (h : ReflTransGen s.typing.registry.Contains x y) :
    ∃ u, ReflTransGen (TypeExpr.HasPart b) t u ∧ p.Has (.type u) ∧ s.typing.typeTypes[u.id]? = some y := by
  induction h with
  | refl => exact ⟨t, .refl, ht, hx⟩
  | tail _ hstep ih =>
    obtain ⟨u, hreach, hu, hy⟩ := ih
    obtain ⟨v, hpart, hz⟩ := (hs.contains_iff hp hb hu hy).mp hstep
    exact ⟨v, hreach.tail hpart, hpart.has hp hb hu, hz⟩

theorem named_of_declares (ht : p.Has (.type t)) (hx : s.typing.typeTypes[t.id]? = some c) (he : s.Declares p e c) :
    ∃ mark name, t = .named mark name ∧ b[mark.id]? = some e := by
  have hdenotes := hs.denotes ht hx
  obtain ⟨definition, hget, -⟩ := hs.definition he.has he.type he.noted
  cases t with
  | atom mark type =>
    obtain rfl : c = type.id := hdenotes
    have hatom := hs.sound.atoms type.id (by cases type <;> decide)
    rw [hget] at hatom
    cases type <;> cases hatom
  | named mark name =>
    obtain ⟨d, hd, hnoted⟩ := hdenotes
    obtain ⟨hhas, htype⟩ := (hp.bindsUses hb).type ht hd
    exact ⟨mark, name, rfl, hs.eq_of_declares ⟨hhas, htype, hnoted⟩ he ▸ hd⟩
  | ptr =>
    obtain ⟨_, -, hget'⟩ := hdenotes
    cases hget.symm.trans hget'
  | arr =>
    obtain ⟨_, _, -, -, hget'⟩ := hdenotes
    cases hget.symm.trans hget'
  | record =>
    obtain ⟨_, hget', -⟩ := hdenotes
    cases hget.symm.trans hget'

/-- What a declared type contains is a declared type, below it. -/
theorem transGen_of_contains (hd : s.Declares p d a) (h : d.Contains b e) :
    ∃ c, s.Declares p e c ∧ TransGen s.typing.registry.Contains a c := by
  obtain ⟨mark, name, hparts, hbound⟩ := h
  obtain ⟨definition, hget, hnoted⟩ := hs.definition hd.has hd.type hd.noted
  obtain ⟨hu, y, hy, hreach⟩ := hs.reaches_of_parts hp hb hd.has.type hnoted hparts
  obtain ⟨c, he, hc⟩ := hs.declares_of_named hp hb hu hbound
  obtain rfl : y = c := Option.some.inj (hy.symm.trans hc)
  exact ⟨y, he, .head' (.definition hget) hreach⟩

/-- Containment of declared types is that of their named types. -/
theorem contains_iff_transGen (hd : s.Declares p d a) (he : s.Declares p e c) :
    d.Contains b e ↔ TransGen s.typing.registry.Contains a c := by
  constructor
  · intro h
    obtain ⟨c', he', hreach⟩ := hs.transGen_of_contains hp hb hd h
    rwa [he.unique he']
  · intro h
    obtain ⟨definition, hget, hnoted⟩ := hs.definition hd.has hd.type hd.noted
    obtain ⟨y, hstep, hreach⟩ := TransGen.head'_iff.mp h
    obtain rfl : y = definition := by
      rw [Registry.contains_iff, Registry.PartOf, Registry.parts, hget] at hstep
      exact List.mem_singleton.mp hstep
    obtain ⟨u, hparts, hu, hc⟩ := hs.parts_of_reaches hp hb hd.has.type hnoted hreach
    obtain ⟨mark, name, rfl, hbound⟩ := hs.named_of_declares hp hb hu hc he
    exact ⟨mark, name, hparts, hbound⟩

/-- From a type that contains itself one comes to a declared type: other parts are smaller than the whole. -/
theorem leadsToDeclared_of_expr (ht : p.Has (.type t)) (hx : s.typing.typeTypes[t.id]? = some x)
    (h : s.typing.registry.ContainsItself x) : s.LeadsToDeclared p x := by
  induction hsize : sizeOf t using Nat.strong_induction_on generalizing t x with
  | h n ih =>
    obtain ⟨y, hstep, hback⟩ := TransGen.head'_iff.mp h
    obtain ⟨u, hpart, hy⟩ := (hs.contains_iff hp hb ht hx).mp hstep
    have hsmaller : sizeOf u < n → s.LeadsToDeclared p x := fun hlt =>
      (ih _ hlt (hpart.has hp hb ht) hy (.tail' hback hstep) rfl).head hstep
    cases hpart with
    | definition hbound =>
      obtain ⟨c, he, hc⟩ := hs.declares_of_named hp hb ht hbound
      obtain rfl : c = x := Option.some.inj (hc.symm.trans hx)
      exact ⟨_, c, he, .refl, h⟩
    | element =>
      apply hsmaller
      rw [← hsize, TypeExpr.arr.sizeOf_spec]
      omega
    | @component mark components d hd =>
      apply hsmaller
      have hlt := List.sizeOf_lt_of_mem hd
      have htype : sizeOf d.type < sizeOf d := by
        cases d <;> simp only [Decl.type, Decl.typed.sizeOf_spec, Decl.proto.sizeOf_spec, Decl.function.sizeOf_spec] <;>
          omega
      rw [← hsize, TypeExpr.record.sizeOf_spec]
      omega

/-- Every circle goes through a declared type. -/
theorem leadsToDeclared (h : s.typing.registry.ContainsItself x) : s.LeadsToDeclared p x := by
  have hcomposite : (s.typing.registry.get x).isComposite → s.LeadsToDeclared p x := fun hx => by
    obtain ⟨t, ht, -, hnoted⟩ := (hs.lists x).composite hx
    exact hs.leadsToDeclared_of_expr hp hb ht hnoted h
  obtain ⟨y, hstep, -⟩ := TransGen.head'_iff.mp h
  cases hstep with
  | definition hget =>
    have hnamed : s.typing.registry.isNamed x := by simp [Registry.isNamed, hget]
    obtain ⟨e, he⟩ := hs.isNamed_iff.mp hnamed
    exact ⟨e, x, he, .refl, h⟩
  | element hget | component hget => exact hcomposite (by rw [hget]; rfl)

theorem leadsToCircle_iff (hd : s.Declares p d a) : d.LeadsToCircle b ↔ s.typing.registry.LeadsToCircle a := by
  constructor
  · rintro (h | ⟨e, hde, hee⟩)
    · exact ⟨a, .refl, (hs.contains_iff_transGen hp hb hd hd).mp h⟩
    · obtain ⟨c, he, hreach⟩ := hs.transGen_of_contains hp hb hd hde
      exact ⟨c, hreach.to_reflTransGen, (hs.contains_iff_transGen hp hb he he).mp hee⟩
  · rintro ⟨x, hreach, hcircle⟩
    obtain ⟨e, c, he, hreach', hcircle'⟩ := hs.leadsToDeclared hp hb hcircle
    have hself := (hs.contains_iff_transGen hp hb he he).mpr hcircle'
    rcases reflTransGen_iff_eq_or_transGen.mp (hreach.trans hreach') with rfl | hac
    · exact .inl (hs.eq_of_declares hd he ▸ hself)
    · exact .inr ⟨e, (hs.contains_iff_transGen hp hb hd he).mpr hac, hself⟩

end

end Typer.Written

/-- Type declarations have been entered one after the other: their types are new, with numbers in the order of the
declarations, and known by them. -/
structure Typer.Enters (p : Program) (b : Bindings) (ds : List Decl) (s s' : Typer) : Prop where
  grows : s.Grows p b (fun _ => True) s'
  listed : ∀ d ∈ ds, ∀ a, s'.Declares p d a → s.typing.registry.size ≤ a ∧ s'.namedDecls.lookup a = some d
  ordered : ds.Pairwise fun d e => ∀ a c, s'.Declares p d a → s'.Declares p e c → a < c

theorem Typer.Enters.cons {ds : List Decl} {s₁ s' : Typer} (hgrows : s.Grows p b (fun _ => True) s₁)
    (hd : d.isType → ∃ a, s₁.Declares p d a ∧ s.typing.registry.size ≤ a ∧ a < s₁.typing.registry.size ∧
      s₁.namedDecls.lookup a = some d)
    (h : s₁.Enters p b ds s') : s.Enters p b (d :: ds) s' := by
  have hself : ∀ a, s'.Declares p d a → s.typing.registry.size ≤ a ∧ a < s₁.typing.registry.size ∧
      s'.namedDecls.lookup a = some d := fun a ha => by
    obtain ⟨a', ha', hle, hlt, hlisted⟩ := hd ha.type
    obtain rfl : a' = a := Option.some.inj ((h.grows.decls _ a' ha'.noted).symm.trans ha.noted)
    exact ⟨hle, hlt, (h.grows.names a' hlt).trans hlisted⟩
  refine ⟨hgrows.trans h.grows, List.forall_mem_cons.mpr ⟨fun a ha => ?_, fun e he a ha => ?_⟩,
    List.pairwise_cons.mpr ⟨fun e he a c ha hc => ?_, h.ordered⟩⟩
  · obtain ⟨hle, -, hlisted⟩ := hself a ha
    exact ⟨hle, hlisted⟩
  · obtain ⟨hle, hlisted⟩ := h.listed e he a ha
    exact ⟨Nat.le_trans hgrows.registry.size hle, hlisted⟩
  · exact Nat.lt_of_lt_of_le (hself a ha).2.1 (h.listed e he c hc).1

theorem yields_named_new (b : Bindings) (hp : p.Numbered) (hs : s.Sound p) (hd : p.Has (.decl d)) (htype : d.isType)
    (hnone : s.typing.declTypes[d.id]? = none) :
    Yields (named d) s (fun a s' => s'.Sound p ∧ s.Grows p b (· = d.id) s' ∧ s'.Declares p d a ∧
      s.typing.registry.size ≤ a ∧ a < s'.typing.registry.size ∧ s'.namedDecls.lookup a = some d)
      SemanticFault.Local := by
  have h := yields_named b (· = d.id) hp hs hd htype rfl
  simp only [named, ofDeclOnce, Infer.add, yields_bind, yields_get, hnone, yields_modifyGet, yields_modify,
    yields_pure] at h ⊢
  obtain ⟨hfinds, -, hnoted⟩ := h
  exact ⟨hfinds.sound, hfinds.grows, ⟨hd, htype, hnoted⟩, by simp, by simp, by simp⟩

theorem Program.Numbered.nodup_allDecls (hp : p.Numbered) : p.allDecls.Nodup := by
  have hsub : (p.allDecls.map Node.decl).Sublist (entered p.walk) := by
    unfold allDecls entered
    generalize p.walk = vs
    induction vs with
    | nil => exact .slnil
    | cons v vs ih =>
      cases v with
      | leave => exact ih
      | enter n =>
        cases n with
        | decl => exact ih.cons_cons _
        | _ => exact ih.cons _
  exact (hp.nodup_walk.sublist hsub).of_map

theorem yields_enterNames_enters (b : Bindings) (hp : p.Numbered) :
    Yields p.enterNames {} (fun _ s' => Enters p b p.allDecls {} s') SemanticFault.Local := by
  have hhas : ∀ d ∈ p.allDecls, p.Has (.decl d) := fun d => Program.mem_allDecls.mp
  have hnodup := hp.nodup_allDecls
  have hs : Sound p {} := sound_initial
  have hnone : ∀ d ∈ p.allDecls, ({} : Typer).typing.declTypes[d.id]? = none := by simp
  unfold Program.enterNames
  generalize p.allDecls = ds at hhas hnodup hnone
  generalize ({} : Typer) = s at hs hnone
  induction ds generalizing s with
  | nil => exact ⟨.refl s, by simp, .nil⟩
  | cons d ds ih =>
    obtain ⟨hd, hds⟩ := List.forall_mem_cons.mp hhas
    obtain ⟨hnew, hdsNodup⟩ := List.nodup_cons.mp hnodup
    obtain ⟨hdnone, hdsNone⟩ := List.forall_mem_cons.mp hnone
    rw [yields_forM_cons]
    split
    · next mark name type =>
      apply (yields_named_new b hp hs hd rfl hdnone).bind
      rintro a s₁ ⟨hs₁, hgrows, hdeclares⟩
      rw [yields_pure]
      refine (ih hds hdsNodup s₁ hs₁ fun e he => ?_).mono fun _ s' h =>
        .cons (hgrows.mono fun _ _ => trivial) (fun _ => ⟨a, hdeclares⟩) h
      rw [hgrows.otherDecls, hdsNone e he]
      intro heq
      cases hp.eq_of_id (hds e he) hd heq
      exact hnew he
    · next hother =>
      refine (ih hds hdsNodup s hs hdsNone).mono fun _ s' h => .cons (.refl s) (fun htype => ?_) h
      unfold Decl.isType at htype
      split at htype
      · exact absurd rfl (hother _ _ _)
      · cases htype

/-- The type that the search for circles finds is that of the first declaration that leads to a circle. -/
theorem Typer.Written.exists_first (hp : p.Formed) (hb : p.bind = .ok b) (hs : s.Written p b)
    (henters : Enters p b p.allDecls {} s) (hcircle : s.typing.registry.circle? = some a) :
    ∃ before d after, p.allDecls = before ++ d :: after ∧ s.Declares p d a ∧ d.LeadsToCircle b ∧
      ∀ e ∈ before, e.isType → ¬ e.LeadsToCircle b := by
  obtain ⟨hnamed, hleads, hfirst⟩ := Registry.circle?_eq_some_iff.mp hcircle
  obtain ⟨d, hd⟩ := hs.isNamed_iff.mp hnamed
  obtain ⟨before, after, hsplit⟩ := List.append_of_mem (Program.mem_allDecls.mpr hd.has)
  refine ⟨before, d, after, hsplit, hd, (hs.leadsToCircle_iff hp hb hd).mpr hleads, fun e he htype heleads => ?_⟩
  have hhas : p.Has (.decl e) := Program.mem_allDecls.mp (by simp [hsplit, he])
  obtain ⟨c, hc, -⟩ := hs.decls e hhas
  have hdeclares : s.Declares p e c := ⟨hhas, htype, hc⟩
  have hordered := henters.ordered
  rw [hsplit] at hordered
  have hlt : c < a := (List.pairwise_append.mp hordered).2.2 e he d List.mem_cons_self c a hdeclares hd
  exact hfirst c hlt (hs.isNamed_iff.mpr ⟨e, hdeclares⟩) ((hs.leadsToCircle_iff hp hb hdeclares).mp heleads)

theorem Typer.Walks.enters {s₀ : Typer} (h : s₀.Walks p b (entered p.walk) s) (hs₀ : s₀.Entered p)
    (henters : Enters p b p.allDecls {} s₀) : Enters p b p.allDecls {} s := by
  have hdeclares : ∀ {d a}, s.Declares p d a → s₀.Declares p d a := fun {d a} hd => by
    obtain ⟨c, hc⟩ := hs₀.names d hd.has hd.type
    obtain rfl : c = a := Option.some.inj ((h.grows.decls _ c hc).symm.trans hd.noted)
    exact ⟨hd.has, hd.type, hc⟩
  refine ⟨henters.grows.trans h.grows, fun d hd a ha => ?_, henters.ordered.imp fun hlt a c ha hc => ?_⟩
  · obtain ⟨hle, hlisted⟩ := henters.listed d hd a (hdeclares ha)
    exact ⟨hle, (h.grows.names a (hs₀.sound.decls _ a (hdeclares ha).noted)).trans hlisted⟩
  · exact hlt a c (hdeclares ha) (hdeclares hc)

end

theorem checkCircles_eq_error {s : Typer} {err : SemanticError} (h : checkCircles.run s = .error err) :
    ∃ t, s.typing.registry.circle? = some t ∧
      ∀ d, s.namedDecls.lookup t = some d → err = ⟨d.position, .type (.containsItself d.name)⟩ := by
  rw [checkCircles, StateT.run_bind, StateT.run_get] at h
  simp only [pure_bind] at h
  split at h
  · cases h
  · next t hcircle =>
    refine ⟨t, hcircle, fun d hd => ?_⟩
    rw [hd] at h
    cases h
    rfl

namespace Program

variable {p : Program} {b : Bindings}

theorem Formed.written (hp : p.Formed) (hb : p.bind = .ok b) {s₀ s : Typer}
    (hnames : p.enterNames.run {} = .ok ((), s₀)) (hresolve : (p.resolveAll b).run s₀ = .ok ((), s)) :
    s.Written p b ∧ Enters p b p.allDecls {} s := by
  obtain ⟨hs₀, hgrows₀, hlists₀⟩ := (yields_enterNames b hp.numbered).of_run hnames
  have hwalks := (yields_resolveAll hp (hp.bindsUses hb) hs₀.sound).of_run hresolve
  exact ⟨hwalks.written hs₀ hgrows₀ hlists₀, hwalks.enters hs₀ ((yields_enterNames_enters b hp.numbered).of_run hnames)⟩

/-- That a type contains itself is found by the search for circles only, once all types are written down. -/
theorem Formed.exists_circle (hp : p.Formed) (hb : p.bind = .ok b) {err : SemanticError} {name : String}
    (h : p.typing b = .error err) (hfault : err.fault = .type (.containsItself name)) :
    ∃ s : Typer, s.Written p b ∧ Enters p b p.allDecls {} s ∧ checkCircles.run s = .error err := by
  have hlocal : ¬ err.fault.Local := by simp [hfault, SemanticFault.Local]
  rcases bind_eq_error.mp h with h | ⟨_, -, h⟩
  · rw [StateT.run_bind] at h
    rcases bind_eq_error.mp h with h | ⟨⟨_, s⟩, hrun, h⟩
    · rw [resolveTypes, StateT.run_bind] at h
      rcases bind_eq_error.mp h with h | ⟨⟨_, s₀⟩, hnames, h⟩
      · exact absurd ((yields_enterNames b hp.numbered).of_error h) hlocal
      have hs₀ := ((yields_enterNames b hp.numbered).of_run hnames).1.sound
      rw [StateT.run_bind] at h
      rcases bind_eq_error.mp h with h | ⟨⟨_, s⟩, hresolve, h⟩
      · exact absurd ((yields_resolveAll hp (hp.bindsUses hb) hs₀).of_error h) hlocal
      obtain ⟨hs, henters⟩ := hp.written hb hnames hresolve
      rw [StateT.run_bind] at h
      rcases bind_eq_error.mp h with h | ⟨_, -, h⟩
      · exact ⟨s, hs, henters, h⟩
      · exact absurd (yields_checkBytes.of_error h) hlocal
    · obtain ⟨-, hcheck⟩ := (hp.yields_typing hb).of_run hrun
      exact absurd (hcheck.of_error h).1 hlocal
  · cases h

/-- The search for circles finds the first named type from which a circle is reached, which is on a circle if and only
if no other named type that leads to one comes before all that are. So the error that a type contains itself names the
first type declaration that leads to a circle: one that contains itself, or contains a later one that does. -/
theorem blamed_leads_to_circle (r : Registry) (t : TypeId) :
    (r.circle? = some t ↔ r.isNamed t ∧ r.LeadsToCircle t ∧ ∀ s < t, r.isNamed s → ¬ r.LeadsToCircle s) ∧
    (r.circle? = some t → (r.ContainsItself t ↔ r.CirclesFirst)) ∧
    ∀ (src : String) (p : Program) (b : Bindings) (err : SemanticError) (name : String),
      (Program.parse src).1 = .ok p → p.bind = .ok b → p.typing b = .error err →
      err.fault = .type (.containsItself name) →
      ∃ before d after, p.allDecls = before ++ d :: after ∧ d.isType ∧ d.name = name ∧ d.position = err.position ∧
        (d.ContainsItself b ∨ ∃ e ∈ after, e.isType ∧ d.Contains b e ∧ e.ContainsItself b) ∧
        (∀ e ∈ before, e.isType → ¬ e.LeadsToCircle b) ∧ (d.ContainsItself b ↔ p.CirclesFirst b) := by
  refine ⟨Registry.circle?_eq_some_iff, Registry.containsItself_iff_circlesFirst, ?_⟩
  intro src p b err name hparse hb herr hfault
  have hp := formed_parse hparse
  obtain ⟨s, hs, henters, hcheck⟩ := hp.exists_circle hb herr hfault
  obtain ⟨a, hcircle, hnamed⟩ := checkCircles_eq_error hcheck
  obtain ⟨before, d, after, hsplit, hd, hleads, hbefore⟩ := hs.exists_first hp hb henters hcircle
  obtain rfl := hnamed d (henters.listed d (mem_allDecls.mpr hd.has) a hd).2
  cases hfault
  refine ⟨before, d, after, hsplit, hd.type, rfl, rfl, ?_, hbefore,
    containsItself_iff_circlesFirst hsplit hd.type hleads hbefore⟩
  rcases hleads with hself | ⟨e, hde, hee⟩
  · exact .inl hself
  · obtain ⟨c, he, -⟩ := hs.transGen_of_contains hp hb hd hde
    have hmem : e ∈ before ++ d :: after := hsplit ▸ mem_allDecls.mpr he.has
    rcases List.mem_append.mp hmem with hmem | hmem
    · exact absurd (.inl hee) (hbefore e hmem he.type)
    · rcases List.mem_cons.mp hmem with rfl | hmem
      · exact .inl hee
      · exact .inr ⟨e, hmem, he.type, hde, hee⟩

/-- A record of a record that contains itself. -/
def enclosedCircle : String := "typ a: rec(x: b); typ b: rec(y: b);"

/-- The types of the two records. -/
def enclosing : Registry := ⟨#[.int, .char, .bool, .void,
  .named "a" (some 6), .named "b" (some 7), .record [("x", 5)], .record [("y", 5)]]⟩

theorem enclosing_not_containsItself : ¬ enclosing.ContainsItself 4 := by
  intro h
  obtain ⟨t, -, hstep⟩ := TransGen.tail'_iff.mp h
  rw [Registry.contains_iff] at hstep
  have hnone : ∀ t < 8, ¬ 4 ∈ enclosing.parts t := by decide
  exact hnone t (Registry.lt_of_partOf hstep) hstep

/-- The outer record is not on the circle to which it leads. -/
theorem enclosedCircle_first : enclosing.LeadsToCircle 4 ∧ ∃ p b err, (Program.parse enclosedCircle).1 = .ok p ∧
    p.bind = .ok b ∧ p.typing b = .error err ∧ ∃ before d after, p.allDecls = before ++ d :: after ∧
      d.name = "a" ∧ d.position = err.position ∧
      (d.ContainsItself b ∨ ∃ e ∈ after, e.isType ∧ d.Contains b e ∧ e.ContainsItself b) := by
  have h : ((Program.parse enclosedCircle).1.toOption.bind fun p => p.bind.toOption.bind fun b =>
      (failure? (p.typing b)).map fun err => err.fault) = some (.type (.containsItself "a")) := by decide +kernel
  simp only [Option.bind_eq_some_iff, Option.map_eq_some_iff, toOption_eq_some, failure?_eq_some] at h
  obtain ⟨p, hp, b, hb, err, herr, hfault⟩ := h
  obtain ⟨hsearch, -, hblamed⟩ := blamed_leads_to_circle enclosing 4
  obtain ⟨before, d, after, hsplit, -, hname, hposition, hcircle, -⟩ := hblamed _ p b err "a" hp hb herr hfault
  have hleads : enclosing.LeadsToCircle 4 := (hsearch.mp (by decide)).2.1
  exact ⟨hleads, p, b, err, hp, hb, herr, before, d, after, hsplit, hname, hposition, hcircle⟩

/-- The type that is blamed need not contain itself. -/
theorem enclosedCircle_blames_outer : (enclosing.circle? = some 4 ∧ ¬ enclosing.ContainsItself 4) ∧
    ∃ p b d, (Program.parse enclosedCircle).1 = .ok p ∧ p.bind = .ok b ∧ d ∈ p.decls ∧
      p.typing b = .error ⟨d.position, .type (.containsItself d.name)⟩ ∧ ¬ d.ContainsItself b := by
  refine ⟨⟨by decide, enclosing_not_containsItself⟩, ?_⟩
  have h : ((Program.parse enclosedCircle).1.toOption.bind fun p => p.bind.toOption.bind fun b =>
      (p.enterNames.run {}).toOption.bind fun r₀ => ((p.resolveAll b).run r₀.2).toOption.bind fun r =>
        p.decls.head?.bind fun d => r.2.typing.declTypes[d.id]?.map fun a =>
          (a, r.2.typing.registry.types, d.isType,
            decide (failure? (p.typing b) = some ⟨d.position, .type (.containsItself d.name)⟩))) =
      some (4, enclosing.types, true, true) := by decide +kernel
  simp only [Option.bind_eq_some_iff, Option.map_eq_some_iff, toOption_eq_some, Prod.mk.injEq, decide_eq_true_eq,
    failure?_eq_some] at h
  obtain ⟨p, hparse, b, hb, ⟨_, s₀⟩, hnames, ⟨_, s⟩, hresolve, d, hd, a, hnoted, rfl, htypes, htype, herr⟩ := h
  refine ⟨p, b, d, hparse, hb, List.mem_of_head? hd, herr, fun hself => ?_⟩
  have hp := formed_parse hparse
  obtain ⟨hs, -⟩ := hp.written hb hnames hresolve
  have hdeclares : s.Declares p d 4 := ⟨⟨0, mem_levels_decl (List.mem_of_head? hd)⟩, htype, hnoted⟩
  have hregistry : s.typing.registry = enclosing := congrArg Registry.mk htypes
  exact enclosing_not_containsItself (hregistry ▸ (hs.contains_iff_transGen hp hb hdeclares hdeclares).mp hself)

end Program

end MmixCompiler
