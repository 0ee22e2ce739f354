import MmixCompiler.Proofs.Types.Resolution
import MmixCompiler.Proofs.Types.Rules

/-! Types of a registry and types of the rules. A type of the registry represents one of the rules if they
have the same unfolding; what the registry tells about the one then holds of the other. Once the types of a
program are resolved, every type expression is represented by the type noted for it. -/

namespace MmixCompiler

namespace Registry

/-- The two types have the same unfolding, with the same names of components. -/
def Represents (r : Registry) (b : Bindings) (t : SourceType) (a : TypeId) : Prop :=
  ∃ R : SourceType → TypeId → Prop, R t a ∧ ∀ t a, R t a → a < r.size ∧
    ∃ x y, t.Unfolds b x ∧ r.shape? a = some y ∧ x.Agrees Eq R y

variable {r r' : Registry} {b : Bindings} {t u : SourceType} {a c : TypeId}

theorem isInt_iff : r.isInt a ↔ r.shape? a = some (.atom .int) := by
  unfold isInt shape?
  cases r.form a <;> simp [Ty.shape?]

theorem isChar_iff : r.isChar a ↔ r.shape? a = some (.atom .char) := by
  unfold isChar shape?
  cases r.form a <;> simp [Ty.shape?]

theorem isBool_iff : r.isBool a ↔ r.shape? a = some (.atom .bool) := by
  unfold isBool shape?
  cases r.form a <;> simp [Ty.shape?]

theorem isVoid_iff : r.isVoid a ↔ r.shape? a = some (.atom .void) := by
  unfold isVoid shape?
  cases r.form a <;> simp [Ty.shape?]

theorem pointee?_iff : r.pointee? a = some c ↔ r.shape? a = some (.ptr c) := by
  unfold pointee? shape?
  cases r.form a <;> simp [Ty.shape?]

theorem element?_iff : r.element? a = some c ↔ ∃ n, r.shape? a = some (.arr n c) := by
  unfold element? shape?
  cases r.form a <;> simp [Ty.shape?]

theorem fields?_iff {fields : List (String × TypeId)} :
    r.fields? a = some fields ↔ r.shape? a = some (.record fields) := by
  unfold fields? shape?
  cases r.form a <;> simp [Ty.shape?]

theorem isWord_iff : r.isWord a ↔ ∃ x, r.shape? a = some x ∧ x.isWord := by
  unfold isWord isInt isChar isBool isPtr pointee? shape?
  cases r.form a <;> simp [Ty.shape?, TypeShape.isWord]

theorem isCastable_iff : r.isCastable a ↔ ∃ x, r.shape? a = some x ∧ x.isCastable := by
  unfold isCastable isInt isChar isPtr pointee? shape?
  cases r.form a <;> simp [Ty.shape?, TypeShape.isCastable]

theorem Widens.shape? (h : r.Widens r') (hr : r.Closed) (ha : a < r.size) {x : TypeShape TypeId}
    (hx : r.shape? a = some x) : r'.shape? a = some x := by
  have hform : r'.form a = r.form a := by
    refine h.form_of_ne_named hr ha rfl fun name d hnamed => ?_
    simp [Registry.shape?, hnamed, Ty.shape?] at hx
  rwa [Registry.shape?, hform]

namespace Represents

theorem lt (h : r.Represents b t a) : a < r.size := by
  obtain ⟨R, h, hR⟩ := h
  exact (hR t a h).1

theorem unfold (h : r.Represents b t a) :
    ∃ x y, t.Unfolds b x ∧ r.shape? a = some y ∧ x.Agrees Eq (r.Represents b) y := by
  obtain ⟨R, h, hR⟩ := h
  obtain ⟨-, x, y, hx, hy, hagrees⟩ := hR t a h
  exact ⟨x, y, hx, hy, hagrees.mono fun t a h => ⟨R, h, hR⟩⟩

theorem of_unfold {x : TypeShape SourceType} {y : TypeShape TypeId} (ha : a < r.size) (hx : t.Unfolds b x)
    (hy : r.shape? a = some y) (hagrees : x.Agrees Eq (r.Represents b) y) : r.Represents b t a := by
  refine ⟨fun u c => r.Represents b u c ∨ u = t ∧ c = a, .inr ⟨rfl, rfl⟩, ?_⟩
  rintro u c (h | ⟨rfl, rfl⟩)
  · obtain ⟨x, y, hx, hy, hagrees⟩ := h.unfold
    exact ⟨h.lt, x, y, hx, hy, hagrees.mono fun _ _ => .inl⟩
  · exact ⟨ha, x, y, hx, hy, hagrees.mono fun _ _ => .inl⟩

theorem widen (h : r.Represents b t a) (hr : r.Closed) (hwidens : r.Widens r') : r'.Represents b t a := by
  refine ⟨r.Represents b, h, fun t a h => ?_⟩
  obtain ⟨x, y, hx, hy, hagrees⟩ := h.unfold
  exact ⟨Nat.lt_of_lt_of_le h.lt hwidens.size, x, y, hx, hwidens.shape? hr h.lt hy, hagrees⟩

/-- The types of the rules match if and only if those of the registry are alike. -/
theorem matches_iff (ht : r.Represents b t a) (hu : r.Represents b u c) : SourceType.Matches b t u ↔ r.Alike a c := by
  constructor
  · rintro ⟨R, h, hR⟩
    refine ⟨fun a c => ∃ t u, r.Represents b t a ∧ r.Represents b u c ∧ R t u, ?_, t, u, ht, hu, h⟩
    rintro a c ⟨t, u, ht, hu, h⟩
    obtain ⟨x, y, hx, hy, hxy⟩ := ht.unfold
    obtain ⟨z, w, hz, hw, hzw⟩ := hu.unfold
    obtain ⟨x', z', hx', hz', hmatch⟩ := hR t u h
    cases hx.unique hx'
    cases hz.unique hz'
    have hmid : y.Agrees TypeShape.anyNames (fun a u => ∃ t, r.Represents b t a ∧ R t u) z :=
      hxy.symm.comp hmatch (fun _ _ _ _ _ => trivial) fun a t u ht h => ⟨t, ht, h⟩
    refine .inr ⟨y, w, hy, hw, hmid.comp hzw (fun _ _ _ _ _ => trivial) ?_⟩
    rintro a u c ⟨t, ht, h⟩ hu
    exact ⟨t, u, ht, hu, h⟩
  · rintro ⟨R, hR, h⟩
    refine ⟨fun t u => ∃ a c, r.Represents b t a ∧ r.Represents b u c ∧ (R a c ∨ a = c), ⟨a, c, ht, hu, .inl h⟩, ?_⟩
    rintro t u ⟨a, c, ht, hu, h⟩
    obtain ⟨x, y, hx, hy, hxy⟩ := ht.unfold
    obtain ⟨z, w, hz, hw, hzw⟩ := hu.unfold
    have hsame : r.actual a = r.actual c → y = w := fun heq => by
      rw [Registry.shape?, form, heq] at hy
      exact Option.some.inj (hy.symm.trans hw)
    have hyw : y.Agrees TypeShape.anyNames (fun a c => R a c ∨ a = c) w := by
      rcases h with h | rfl
      · rcases hR a c h with heq | ⟨y', w', hy', hw', hagrees⟩
        · exact hsame heq ▸ (TypeShape.Agrees.refl y).mono fun _ _ => .inr
        · cases hy.symm.trans hy'
          cases hw.symm.trans hw'
          exact hagrees.mono fun _ _ => .inl
      · exact hsame rfl ▸ (TypeShape.Agrees.refl y).mono fun _ _ => .inr
    have hmid : x.Agrees TypeShape.anyNames (fun t c => ∃ a, r.Represents b t a ∧ (R a c ∨ a = c)) w :=
      hxy.comp hyw (fun _ _ _ _ _ => trivial) fun t a c ht h => ⟨a, ht, h⟩
    refine ⟨x, z, hx, hz, hmid.comp hzw.symm (fun _ _ _ _ _ => trivial) ?_⟩
    rintro t c u ⟨a, ht, h⟩ hu
    exact ⟨a, c, ht, hu, h⟩

theorem equiv_iff (ht : r.Represents b t a) (hu : r.Represents b u c) (hr : r.Closed) :
    r.equiv a c ↔ SourceType.Matches b t u := by
  rw [ht.matches_iff hu, Registry.equiv_iff hr ht.lt hu.lt]

section

variable (h : r.Represents b t a)

include h

theorem unfolds_atom {type : AtomType} : r.shape? a = some (.atom type) ↔ t.Unfolds b (.atom type) := by
  obtain ⟨x, y, hx, hy, hagrees⟩ := h.unfold
  constructor
  · intro hshape
    cases hy.symm.trans hshape
    cases hagrees
    exact hx
  · intro hatom
    cases hx.unique hatom
    cases hagrees
    exact hy

theorem isInt_iff : r.isInt a ↔ t.Unfolds b (.atom .int) :=
  Registry.isInt_iff.trans h.unfolds_atom

theorem isChar_iff : r.isChar a ↔ t.Unfolds b (.atom .char) :=
  Registry.isChar_iff.trans h.unfolds_atom

theorem isBool_iff : r.isBool a ↔ t.Unfolds b (.atom .bool) :=
  Registry.isBool_iff.trans h.unfolds_atom

theorem isVoid_iff : r.isVoid a ↔ t.Unfolds b (.atom .void) :=
  Registry.isVoid_iff.trans h.unfolds_atom

theorem exists_shape {P : TypeShape SourceType → Prop} {Q : TypeShape TypeId → Prop}
    (hPQ : ∀ x y, TypeShape.Agrees Eq (r.Represents b) x y → (P x ↔ Q y)) :
    (∃ y, r.shape? a = some y ∧ Q y) ↔ ∃ x, t.Unfolds b x ∧ P x := by
  obtain ⟨x, y, hx, hy, hagrees⟩ := h.unfold
  constructor
  · rintro ⟨y', hy', hQ⟩
    cases hy.symm.trans hy'
    exact ⟨x, hx, (hPQ x y hagrees).mpr hQ⟩
  · rintro ⟨x', hx', hP⟩
    cases hx.unique hx'
    exact ⟨y, hy, (hPQ x y hagrees).mp hP⟩

theorem isWord_iff : r.isWord a ↔ ∃ x, t.Unfolds b x ∧ x.isWord := by
  rw [Registry.isWord_iff]
  refine h.exists_shape fun x y hagrees => ?_
  cases hagrees with
  | atom type => cases type <;> rfl
  | _ => rfl

theorem isCastable_iff : r.isCastable a ↔ ∃ x, t.Unfolds b x ∧ x.isCastable := by
  rw [Registry.isCastable_iff]
  refine h.exists_shape fun x y hagrees => ?_
  cases hagrees with
  | atom type => cases type <;> rfl
  | _ => rfl

theorem of_pointee? (hc : r.pointee? a = some c) : ∃ u, t.Unfolds b (.ptr u) ∧ r.Represents b u c := by
  obtain ⟨x, y, hx, hy, hagrees⟩ := h.unfold
  cases hy.symm.trans (pointee?_iff.mp hc)
  cases hagrees with
  | ptr hu => exact ⟨_, hx, hu⟩

theorem pointee? (hu : t.Unfolds b (.ptr u)) : ∃ c, r.pointee? a = some c := by
  obtain ⟨x, y, hx, hy, hagrees⟩ := h.unfold
  cases hx.unique hu
  cases hagrees with
  | ptr => exact ⟨_, pointee?_iff.mpr hy⟩

theorem isDeletable_iff :
    (r.isPtr a && !r.isVoidPtr a) ↔ ∃ u, t.Unfolds b (.ptr u) ∧ ¬ u.Unfolds b (.atom .void) := by
  constructor
  · intro hdel
    rw [Bool.and_eq_true, isPtr, Option.isSome_iff_exists] at hdel
    obtain ⟨⟨c, hpointee⟩, hvoid⟩ := hdel
    obtain ⟨u, hu, hc⟩ := h.of_pointee? hpointee
    refine ⟨u, hu, fun hunfolds => ?_⟩
    simp [isVoidPtr, hpointee, hc.isVoid_iff.mpr hunfolds] at hvoid
  · rintro ⟨u, hu, hnot⟩
    obtain ⟨c, hpointee⟩ := h.pointee? hu
    obtain ⟨u', hu', hc⟩ := h.of_pointee? hpointee
    cases hu.unique hu'
    have hvoid : r.isVoid c = false := Bool.eq_false_iff.mpr fun hvoid => hnot (hc.isVoid_iff.mp hvoid)
    simp [isPtr, isVoidPtr, hpointee, hvoid]

theorem of_element? (hc : r.element? a = some c) : ∃ n u, t.Unfolds b (.arr n u) ∧ r.Represents b u c := by
  obtain ⟨x, y, hx, hy, hagrees⟩ := h.unfold
  obtain ⟨n, hshape⟩ := element?_iff.mp hc
  cases hy.symm.trans hshape
  cases hagrees with
  | arr _ hu => exact ⟨n, _, hx, hu⟩

theorem element? {n : Int} (hu : t.Unfolds b (.arr n u)) : ∃ c, r.element? a = some c := by
  obtain ⟨x, y, hx, hy, hagrees⟩ := h.unfold
  cases hx.unique hu
  cases hagrees with
  | arr => exact ⟨_, element?_iff.mpr ⟨n, hy⟩⟩

theorem of_fields? {fields : List (String × TypeId)} (hc : r.fields? a = some fields) :
    ∃ fs, t.Unfolds b (.record fs) ∧ List.Forall₂ (fun f g => f.1 = g.1 ∧ r.Represents b f.2 g.2) fs fields := by
  obtain ⟨x, y, hx, hy, hagrees⟩ := h.unfold
  cases hy.symm.trans (fields?_iff.mp hc)
  cases hagrees with
  | record hfields => exact ⟨_, hx, hfields⟩

theorem fields? {fs : List (String × SourceType)} (hu : t.Unfolds b (.record fs)) :
    ∃ fields, r.fields? a = some fields := by
  obtain ⟨x, y, hx, hy, hagrees⟩ := h.unfold
  cases hx.unique hu
  cases hagrees with
  | record => exact ⟨_, fields?_iff.mpr hy⟩

end

end Represents

theorem form_of_next? {d : TypeId} (h : r.next? a = some d) (hrest : r.next? (r.actual d) = none) :
    r.form a = r.form d := by
  have hfollow : r.follow (r.size + 1) a = r.actual d := by
    rw [follow_succ, h]
    rfl
  rw [form, form, actual_of_rest (n := r.size + 1) (hfollow ▸ hrest), hfollow]

theorem form_of_rest (h : r.next? a = none) : r.form a = r.get a := by
  rw [form, actual_of_rest (n := 0) h]
  rfl

end Registry

section
variable {p : Program} {b : Bindings} {s : Typer} {t : TypeExpr} {a : TypeId}

theorem Program.Has.type {d : Decl} (h : p.Has (.decl d)) : p.Has (.type d.type) :=
  h.part (Node.type_mem_parts d 0)

theorem Program.Has.component {mark : Mark} {components : List Decl} (h : p.Has (.type (.record mark components)))
    {d : Decl} (hd : d ∈ components) : p.Has (.decl d) :=
  h.part (k := 0) (q := (0, .decl d)) (List.mem_map_of_mem hd)

theorem Program.Formed.isType_of_component (hp : p.Formed) {mark : Mark} {components : List Decl}
    (h : p.Has (.type (.record mark components))) {d : Decl} (hd : d ∈ components) : d.isType = false := by
  obtain ⟨k, hk⟩ := h
  exact ((hp.formed _ hk).2 d hd).isType_eq_false (by simp)

/-- A type expression of the program, with the type noted for it. -/
def Typer.Noted (p : Program) (s : Typer) (u : SourceType) (a : TypeId) : Prop :=
  ∃ t, u = .written t ∧ p.Has (.type t) ∧ s.typing.typeTypes[t.id]? = some a

theorem Typer.Resolved.shape_of_ne_named (hp : p.Formed) (hs : s.Resolved p b) (ht : p.Has (.type t))
    (ha : s.typing.typeTypes[t.id]? = some a) (hnamed : ∀ mark name, t ≠ .named mark name) :
    ∃ x y, (SourceType.written t).Unfolds b x ∧ s.typing.registry.shape? a = some y ∧ x.Agrees Eq (s.Noted p) y := by
  have hdenotes := hs.denotes ht ha
  have hshape : ∀ y, s.typing.registry.get a = y → (∀ name d, y ≠ .named name d) →
      s.typing.registry.shape? a = y.shape? := fun y hget hy => by
    have hrest : s.typing.registry.next? a = none := Registry.next?_eq_none.mpr fun name d => hget ▸ hy name d
    rw [Registry.shape?, Registry.form_of_rest hrest, hget]
  cases t with
  | named mark name => exact absurd rfl (hnamed mark name)
  | atom mark type =>
    obtain rfl : a = type.id := hdenotes
    refine ⟨_, .atom type, .writtenAtom mark type, ?_, .atom type⟩
    cases type with
    | int => exact hshape .int (hs.sound.atoms 0 (by decide)) (by simp)
    | char => exact hshape .char (hs.sound.atoms 1 (by decide)) (by simp)
    | bool => exact hshape .bool (hs.sound.atoms 2 (by decide)) (by simp)
    | void => exact hshape .void (hs.sound.atoms 3 (by decide)) (by simp)
  | ptr mark target =>
    obtain ⟨c, hc, hget⟩ := hdenotes
    have htarget : p.Has (.type target) := ht.part (k := 0) (q := (0, .type target)) (by simp [Node.parts])
    exact ⟨_, _, .writtenPtr mark target, hshape _ hget (by simp), .ptr ⟨target, rfl, htarget, hc⟩⟩
  | arr mark length element =>
    obtain ⟨n, c, hn, hc, hget⟩ := hdenotes
    have helement : p.Has (.type element) := ht.part (k := 0) (q := (0, .type element)) (by simp [Node.parts])
    exact ⟨_, _, .writtenArr mark element hn, hshape _ hget (by simp), .arr n ⟨element, rfl, helement, hc⟩⟩
  | record mark components =>
    obtain ⟨fields, hget, hfields⟩ := hdenotes
    refine ⟨_, _, .writtenRecord mark components, hshape _ hget (by simp), .record ?_⟩
    have hcomponents : ∀ d ∈ components, p.Has (.decl d) ∧ d.isType = false := fun d hd =>
      ⟨ht.component hd, hp.isType_of_component ht hd⟩
    rw [List.forall₂_map_left_iff]
    refine ((List.forall₂_and_left _ _).mpr ⟨hcomponents, hfields⟩).imp ?_
    rintro d f ⟨⟨hd, htype⟩, hname, hf⟩
    exact ⟨hname, d.type, rfl, hd.type, hs.declared d hd htype f.2 hf⟩

theorem Typer.Resolved.represents (hp : p.Formed) (hbound : p.BindsUses b) (hs : s.Resolved p b)
    (ht : p.Has (.type t)) (ha : s.typing.typeTypes[t.id]? = some a) :
    s.typing.registry.Represents b (.written t) a := by
  refine ⟨s.Noted p, ⟨t, rfl, ht, ha⟩, ?_⟩
  rintro _ a ⟨t, rfl, ht, ha⟩
  refine ⟨hs.sound.types _ a ha, ?_⟩
  -- names are followed to their definitions, of which there are no circles
  obtain ⟨n, hn⟩ : ∃ n, s.typing.registry.next? (s.typing.registry.follow n a) = none :=
    ⟨_, Registry.rest_of_circle? hs.circles a⟩
  induction n generalizing t a with
  | zero =>
    refine hs.shape_of_ne_named hp ht ha ?_
    rintro mark name rfl
    obtain ⟨d, hd, hdecl⟩ := hs.denotes ht ha
    obtain ⟨hhas, htype⟩ := hbound.type ht hd
    obtain ⟨c, hget, -⟩ := hs.definition hhas htype hdecl
    cases (Registry.next?_eq_some.mpr ⟨_, hget⟩).symm.trans hn
  | succ n ih =>
    cases t with
    | named mark name =>
      obtain ⟨d, hd, hdecl⟩ := hs.denotes ht ha
      obtain ⟨hhas, htype⟩ := hbound.type ht hd
      obtain ⟨c, hget, hc⟩ := hs.definition hhas htype hdecl
      have hnext := Registry.next?_eq_some.mpr ⟨_, hget⟩
      rw [Registry.follow_succ, hnext] at hn
      obtain ⟨x, y, hx, hy, hagrees⟩ := ih c _ hhas.type hc hn
      refine ⟨x, y, .writtenName hd hx, ?_, hagrees⟩
      rwa [Registry.shape?, Registry.form_of_next? hnext (Registry.rest_of_circle? hs.circles c)]
    | _ => exact hs.shape_of_ne_named hp ht ha (by simp)

end
end MmixCompiler
