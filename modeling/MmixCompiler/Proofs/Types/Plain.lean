import MmixCompiler.Proofs.Tree.Grammar
import MmixCompiler.Proofs.Types.Storage

/-! Types as trees. What an expression without names denotes is plain: its parts were entered before it, and
each part can stand in the place of its number. -/

namespace MmixCompiler

/-- What can be written in a type without names. -/
def Ty.Writable : Ty → Prop
  | .arr length _ => 0 < length ∧ length ≤ Word.greatest
  | .record fields => fields ≠ [] ∧ (fields.map Prod.fst).Nodup ∧ ∀ f ∈ fields, Identifier f.1
  | .named _ _ => False
  | _ => True

namespace Registry

variable {r r' : Registry} {a c : TypeId}

/-- A type whose parts are nested less than `n` deep as an expression, with every part written out. -/
def treeTo (r : Registry) : Nat → TypeId → TypeExpr
  | 0, _ => .named .blank ""
  | n + 1, t =>
    match r.get t with
    | .int => .atom .blank .int
    | .char => .atom .blank .char
    | .bool => .atom .blank .bool
    | .void => .atom .blank .void
    | .ptr target => .ptr .blank (r.treeTo n target)
    | .arr length element => .arr .blank (.lit .blank (.int length.toNat)) (r.treeTo n element)
    | .record fields => .record .blank (fields.map fun f => .typed .blank .component f.1 (r.treeTo n f.2))
    | .named name _ => .named .blank name

def tree (r : Registry) (t : TypeId) : TypeExpr := r.treeTo (r.size + 1) t

/-- A type without names at any depth, which was entered after its parts. Only behind pointers it may be void. -/
inductive Plain (r : Registry) : TypeId → Prop where
  | intro {a : TypeId} (hform : (r.get a).Writable) (hvoid : ∀ c ∈ r.parts a, r.get c ≠ .void)
      (hbefore : ∀ c ∈ (r.get a).targets, c < a) (hplain : ∀ c ∈ (r.get a).targets, Plain r c) : Plain r a

theorem mem_targets_of_parts (h : c ∈ r.parts a) : c ∈ (r.get a).targets := by
  unfold parts at h
  split at h <;> simp_all [Ty.targets]

namespace Plain

theorem ne_named (h : r.Plain a) (name : String) (d : Option TypeId) : r.get a ≠ .named name d := by
  obtain ⟨hform, -⟩ := h
  intro hget
  rw [hget] at hform
  exact hform

theorem next?_eq_none (h : r.Plain a) : r.next? a = none := Registry.next?_eq_none.mpr fun name _ => h.ne_named name _

theorem form_eq (h : r.Plain a) : r.form a = r.get a := form_of_rest h.next?_eq_none

theorem mono (h : r.Plain a) (ha : a < r.size) (hr : r.Widens r') : r'.Plain a := by
  induction h with
  | @intro a hform hvoid hbefore _ ih =>
    have hget := hr.get a ha
    have hparts : r'.parts a = r.parts a := by rw [Registry.parts, Registry.parts, hget]
    refine .intro (hget ▸ hform) (fun c hc => ?_) (hget ▸ hbefore) fun c hc => ?_
    · rw [hparts] at hc
      rw [hr.get c (Nat.lt_trans (hbefore c (mem_targets_of_parts hc)) ha)]
      exact hvoid c hc
    · rw [hget] at hc
      exact ih c hc (Nat.lt_trans (hbefore c hc) ha)

theorem within (h : r.Plain a) (hvoid : r.get a ≠ .void) {u : TypeId} (hu : r.Within u a) :
    r.Plain u ∧ r.get u ≠ .void := by
  induction hu with
  | refl => exact ⟨h, hvoid⟩
  | tail _ hpart ih =>
    obtain ⟨_, hparts, -, hplain⟩ := ih.1
    exact ⟨hplain _ (mem_targets_of_parts hpart), hparts _ hpart⟩

theorem word_le_bytesTo (h : r.Plain a) (hvoid : r.get a ≠ .void) (hsolid : ∀ i, (r.get i).Solid) {n : Nat} {b : Int}
    (hb : r.bytesTo n a = some b) : Word.size ≤ b := by
  refine le_bytesTo hsolid (fun u hu => ?_) hb
  obtain ⟨hplain, hne⟩ := h.within hvoid hu
  rw [isVoid_eq_false, hplain.form_eq]
  exact ⟨hne, hplain.ne_named⟩

/-- An array of which a word can hold the bytes has no more elements than a word can hold. -/
theorem length_le (h : r.Plain c) (hvoid : r.get c ≠ .void) (hsolid : ∀ i, (r.get i).Solid) {length : Int}
    (hform : r.form a = .arr length c) {b : Int} (hb : r.bytes? a = some b) : length ≤ Word.greatest := by
  obtain ⟨-, hword⟩ | ⟨-, hnone⟩ | ⟨l, e, n, harr, hn, hfits, -⟩ | ⟨fields, hrecord, -⟩ := bytesTo_cases hb
  · simp [hform] at hword
  · simp [hform] at hnone
  · cases hform.symm.trans harr
    have hle := h.word_le_bytesTo hvoid hsolid hn
    have hpos := length_pos_of_form hsolid hform
    have hproduct : length * 1 ≤ length * n :=
      Int.mul_le_mul_of_nonneg_left (Int.le_trans (by decide) hle) (Int.le_of_lt hpos)
    rw [Int.mul_one] at hproduct
    exact Int.le_trans hproduct hfits.2
  · simp [hform] at hrecord

end Plain

end Registry

section
variable {p : Program} {bindings : Bindings} {s : Typer} {c : TypeId}

theorem Typer.Sound.not_later (hs : s.Sound p) (h : s.typing.registry.Plain c) {n : Node} {d : Decl}
    (hd : p.Later n d) (htype : d.isType) (k : Nat) :
    s.typing.declTypes[d.id]? ≠ some (s.typing.registry.follow k c) := by
  intro hnoted
  obtain ⟨before, after, hwalk, hmem⟩ := hd
  have hhas : p.Has (.decl d) := Program.enter_mem_walk.mp (mem_entered.mp (by simp [hwalk, hmem]))
  rw [Registry.follow_of_rest h.next?_eq_none] at hnoted
  obtain ⟨_, hget, -⟩ := hs.names d hhas htype c hnoted
  exact h.ne_named _ _ hget

theorem Typer.Resolved.storage_ne_void (hs : s.Resolved p bindings) {d : Decl} (hd : p.Has (.decl d))
    (htype : d.isType = false) (hsignature : d.signature? = none) (hnoted : s.typing.declTypes[d.id]? = some c)
    (h : s.typing.registry.Plain c) : s.typing.registry.get c ≠ .void := by
  intro hvoid
  obtain ⟨k, e, he, hetype, hlater⟩ := hs.storage_later hd htype hsignature hnoted
    (by simp [Registry.isVoid, h.form_eq, hvoid])
  exact hs.sound.not_later h he hetype k hlater

/-- The type of the node is plain. -/
def Node.TypedPlain (s : Typer) : Node → Prop
  | .type t => ∀ a, s.typing.typeTypes[t.id]? = some a → s.typing.registry.Plain a
  | .decl d => d.isType = false → ∀ a, s.typing.declTypes[d.id]? = some a → s.typing.registry.Plain a
  | _ => True

/-- Expressions without names denote plain types. -/
theorem Node.typedPlain (hp : p.Formed) (hs : s.Resolved p bindings) {n : Node} (hn : p.Has n)
    (hnamed : ∀ mark name, .type (.named mark name) ∉ n.nodes) : n.TypedPlain s := by
  induction (0 : Nat), n using Node.induct with
  | h k n ih =>
    have hpart : ∀ q ∈ n.parts true k, q.2.TypedPlain s := fun q hq => ih q hq (hn.part hq) fun mark name hmem =>
      hnamed mark name (Node.nodes_subset_of_parts hq hmem)
    cases n with
    | stmt | expr => trivial
    | decl d =>
      intro htype a ha
      exact hpart _ (Node.type_mem_parts d k) a (hs.declared d hn htype a ha)
    | type t =>
      intro a ha
      have hdenotes := hs.denotes hn ha
      have hbefore := hs.sound.before a
      cases t with
      | named mark name => exact absurd (Node.mem_nodes_self _) (hnamed mark name)
      | atom mark type =>
        obtain rfl : a = type.id := hdenotes
        have hget := hs.sound.atoms type.id (by cases type <;> decide)
        have htargets : (s.typing.registry.get type.id).targets = [] := by cases type <;> exact congrArg Ty.targets hget
        refine .intro ?_ (fun c hc => ?_) (by simp [htargets]) (by simp [htargets])
        · cases type <;> exact hget ▸ trivial
        · simpa [htargets] using Registry.mem_targets_of_parts hc
      | ptr mark target =>
        obtain ⟨c, hc, hget⟩ := hdenotes
        have hplain := hpart (k, .type target) (by simp [Node.parts]) c hc
        refine .intro (by simp [hget, Ty.Writable]) (by simp [Registry.parts, hget]) (hbefore (by simp [hget])) ?_
        simpa [hget, Ty.targets] using hplain
      | arr mark length element =>
        obtain ⟨n, c, -, hc, hget⟩ := hdenotes
        have hplain := hpart (k, .type element) (by simp [Node.parts]) c hc
        have hvoid : s.typing.registry.get c ≠ .void := fun hvoid => by
          obtain ⟨_, k, d, -, -, hd, htype, hnoted⟩ := hs.array_later hp hget
            (by simp [Registry.isVoid, hplain.form_eq, hvoid])
          exact hs.sound.not_later hplain hd htype k hnoted
        obtain ⟨b, hb⟩ := Option.isSome_iff_exists.mp (hs.bytes a (by simp [hget, Ty.isComposite]))
        have hform : s.typing.registry.form a = .arr n c := by
          rw [Registry.form_of_rest (by simp [Registry.next?, hget]), hget]
        have hpos : 0 < n := Registry.length_pos_of_form hs.sound.solid hform
        refine .intro ?_ (by simpa [Registry.parts, hget] using hvoid) (hbefore (by simp [hget])) ?_
        · simpa [hget, Ty.Writable, hpos] using hplain.length_le hvoid hs.sound.solid hform hb
        · simpa [hget, Ty.targets] using hplain
      | record mark components =>
        obtain ⟨fields, hget, hfields⟩ := hdenotes
        have hcomponent : ∀ d ∈ components, Identifier d.name ∧ ∀ c, s.typing.declTypes[d.id]? = some c →
            s.typing.registry.Plain c ∧ s.typing.registry.get c ≠ .void := fun d hd => by
          have hmem : (k, .decl d) ∈ (Node.type (.record mark components)).parts true k := List.mem_map.mpr ⟨d, hd, rfl⟩
          have hdecl := hn.part hmem
          obtain ⟨⟨i, hi⟩, j, hj⟩ := And.intro hn hdecl
          have hrole := (hp.formed _ hi).2 d hd
          have hname := hp.formed _ hj
          cases d with
          | proto | function => exact hrole.elim
          | typed mark role name type =>
            obtain rfl : role = .component := hrole
            refine ⟨hname, fun c hc => ?_⟩
            have hplain := hpart _ hmem rfl c hc
            exact ⟨hplain, hs.storage_ne_void hdecl rfl rfl hc hplain⟩
        have hcomponents : ∀ f ∈ fields, Identifier f.1 ∧ s.typing.registry.Plain f.2 ∧
            s.typing.registry.get f.2 ≠ .void := fun f hf => by
          obtain ⟨d, hd, hname, hnoted⟩ := exists_left_of_forall₂ hfields hf
          obtain ⟨hidentifier, hplain⟩ := hcomponent d hd
          exact ⟨hname ▸ hidentifier, hplain _ hnoted⟩
        obtain ⟨hne, hnodup⟩ : (Ty.record fields).Solid := hget ▸ hs.sound.solid a
        refine .intro ?_ ?_ (hbefore (by simp [hget])) ?_
        · rw [hget]
          exact ⟨hne, hnodup, fun f hf => (hcomponents f hf).1⟩
        · simpa [Registry.parts, hget] using fun c name hf => (hcomponents (name, c) hf).2.2
        · simpa [hget, Ty.targets] using fun c name hf => (hcomponents (name, c) hf).2.1

end

end MmixCompiler
