import Mathlib.Algebra.BigOperators.Ring.List
import MmixCompiler.Proofs.Types.Storage
import MmixCompiler.Proofs.Types.Unfolding

/-! Sizes of types. In a program whose types are accepted, the bytes of every type fit a word, so that neither they nor
the offsets of components are ever cut off: they are what one counts over the integers. -/

namespace MmixCompiler

/-- Intervals of which each begins where the one before ends leave no gap, and have nothing in common. -/
theorem existsUnique_interval {offset : Nat → Int} (hmono : ∀ i j, i ≤ j → offset i ≤ offset j) {n : Nat} {x : Int}
    (hx : offset 0 ≤ x) (hn : x < offset n) : ∃! i, offset i ≤ x ∧ x < offset (i + 1) := by
  have hexists : ∃ i, offset i ≤ x ∧ x < offset (i + 1) := by
    induction n with
    | zero => omega
    | succ n ih =>
      rcases Int.lt_or_le x (offset n) with hlt | hle
      · exact ih hlt
      · exact ⟨n, hle, hn⟩
  obtain ⟨i, hi, hi'⟩ := hexists
  refine ⟨i, ⟨hi, hi'⟩, fun j hj => ?_⟩
  rcases Nat.lt_trichotomy i j with hlt | heq | hlt
  · have hle : offset (i + 1) ≤ offset j := hmono _ _ hlt
    omega
  · exact heq.symm
  · have hle : offset (j + 1) ≤ offset i := hmono _ _ hlt
    omega

namespace Registry

variable {r : Registry} {t u a : TypeId}

/-- The bytes that a type takes, counted over the integers. A name takes those of its definition, an array those of its
elements, and a record those of its components; a type on a circle of containment takes no number of bytes. -/
inductive Occupies (r : Registry) : TypeId → Int → Prop where
  | word {t : TypeId}
      (h : r.get t = .int ∨ r.get t = .char ∨ r.get t = .bool ∨ ∃ target, r.get t = .ptr target) :
      Occupies r t Word.size
  | void {t : TypeId} (h : r.get t = .void) : Occupies r t 0
  | named {t d : TypeId} {name : String} {n : Int} (h : r.get t = .named name (some d)) (hd : Occupies r d n) :
      Occupies r t n
  | arr {t e : TypeId} {length n : Int} (h : r.get t = .arr length e) (he : Occupies r e n) :
      Occupies r t (length * n)
  | record {t : TypeId} {fields : List (String × TypeId)} {g : TypeId → Int} (h : r.get t = .record fields)
      (hfields : ∀ f ∈ fields, Occupies r f.2 (g f.2)) : Occupies r t (fields.map fun f => g f.2).sum

namespace Occupies

variable {n m : Int}

theorem unique (h : r.Occupies t n) (h' : r.Occupies t m) : n = m := by
  induction h generalizing m with
  | word h =>
    cases h' with
    | word => rfl
    | void h' | named h' | arr h' | record h' => simp [h'] at h
  | void h =>
    cases h' with
    | word h' | named h' | arr h' | record h' => simp [h] at h'
    | void => rfl
  | named h _ ih =>
    cases h' with
    | word h' | void h' | arr h' | record h' => simp [h] at h'
    | named h' hd' =>
      cases h.symm.trans h'
      exact ih hd'
  | arr h _ ih =>
    cases h' with
    | word h' | void h' | named h' | record h' => simp [h] at h'
    | arr h' he' =>
      cases h.symm.trans h'
      rw [ih he']
  | record h _ ih =>
    cases h' with
    | word h' | void h' | named h' | arr h' => simp [h] at h'
    | record h' hfields' =>
      cases h.symm.trans h'
      exact congrArg List.sum (List.map_congr_left fun f hf => ih f hf (hfields' f hf))

theorem dvd (h : r.Occupies t n) : Word.size ∣ n := by
  induction h with
  | word => exact Int.dvd_refl _
  | void => exact Int.dvd_zero _
  | named _ _ ih => exact ih
  | arr _ _ ih => exact Int.dvd_mul_of_dvd_right ih
  | record _ _ ih => exact List.dvd_sum (List.forall_mem_map.mpr ih)

end Occupies

theorem Denotes.occupies {n : Int} (h : r.Denotes t u) (hu : r.Occupies u n) : r.Occupies t n := by
  induction h with
  | rest => exact hu
  | named h _ ih => exact .named h (ih hu)

/-- If there is a type behind all names, the bytes that are found are those that the type takes. -/
theorem occupies_of_bytesTo (hnamed : ∀ a name d, r.form a ≠ .named name d) {n : Nat} {b : Int}
    (h : r.bytesTo n t = some b) : r.Occupies t b := by
  induction n generalizing t b with
  | zero => cases h
  | succ n ih =>
    have hdenotes : r.Denotes t (r.actual t) := denotes_follow (next?_eq_none.mpr fun name d => hnamed t name (some d))
    apply hdenotes.occupies
    obtain ⟨rfl, hform⟩ | ⟨rfl, hform | ⟨name, d, hform⟩⟩ | ⟨length, e, c, hform, hc, -, rfl⟩ | ⟨fields, hform, hb⟩ :=
      bytesTo_cases h
    · exact .word hform
    · exact .void hform
    · exact absurd hform (hnamed t name d)
    · exact .arr hform (ih hc)
    · have hsum : (fields.map fun f => r.extentTo n f.2).sum = b := by
        simpa using foldlM_checked_sum hb fun f _ c hc => extentTo_of_bytesTo hc
      refine hsum ▸ .record hform fun f hf => ?_
      obtain ⟨c, hc⟩ := exists_of_foldlM_checked hb hf
      rw [extentTo_of_bytesTo hc]
      exact ih hc

/-- The components of a record follow each other from its first byte to its last, and every byte of it is in one
component. -/
structure Tiles (r : Registry) (a : TypeId) (fields : List (String × TypeId)) : Prop where
  first : r.fieldOffset a 0 = 0
  next : ∀ i f, fields[i]? = some f → r.fieldOffset a (i + 1) = r.fieldOffset a i + r.bytes f.2
  last : r.fieldOffset a fields.length = r.bytes a
  byte : ∀ x, 0 ≤ x → x < r.bytes a →
    ∃! i, ∃ f, fields[i]? = some f ∧ r.fieldOffset a i ≤ x ∧ x < r.fieldOffset a i + r.bytes f.2

section
variable (hbytes : ∀ u, ∃ b, r.bytes? u = some b) (hsolid : ∀ i, (r.get i).Solid)
include hbytes

theorem bytes_record {fields : List (String × TypeId)} (hform : r.form a = .record fields) :
    r.bytes a = (fields.map fun f => r.extent f.2).sum := by
  obtain ⟨b, hb⟩ := hbytes a
  rw [bytes_of_bytes? hb]
  rw [bytes?, bytesTo, hform] at hb
  have hextent : ∀ f ∈ fields, ∀ c, r.bytesTo r.size f.2 = some c → r.extent f.2 = c := fun f _ c hc =>
    extentTo_of_bytesTo (bytesTo_succ hc)
  simpa using (foldlM_checked_sum hb hextent).symm

theorem bytes_arr {length : Int} {e : TypeId} (hform : r.form a = .arr length e) : r.bytes a = length * r.bytes e := by
  obtain ⟨b, hb⟩ := hbytes a
  rw [bytes_of_bytes? hb]
  rw [bytes?, bytesTo, hform] at hb
  obtain ⟨c, hc, hb⟩ := Option.bind_eq_some_iff.mp hb
  rw [bytes_of_bytes? (bytesTo_succ hc), (Word.checked_eq_some_iff.mp hb).2]

include hsolid

theorem tiles {fields : List (String × TypeId)} (hform : r.form a = .record fields) : r.Tiles a fields := by
  have hextent : ∀ u, r.bytes u = r.extent u := fun u => (hbytes u).elim fun _ hb => bytes_eq_extent hb
  have hoffset : ∀ i, r.fieldOffset a i = ((fields.take i).map fun f => r.extent f.2).sum :=
    (hbytes a).elim fun _ hb => fieldOffset_eq hb hform
  have hnext : ∀ i f, fields[i]? = some f → r.fieldOffset a (i + 1) = r.fieldOffset a i + r.bytes f.2 := by
    intro i f hf
    rw [hoffset, hoffset, hextent, List.take_add_one, hf]
    simp
  have hlast : ∀ i, fields.length ≤ i → r.fieldOffset a i = r.bytes a := fun i hi => by
    rw [hoffset, List.take_of_length_le hi, bytes_record hbytes hform]
  have hmono : Monotone (r.fieldOffset a) := by
    refine monotone_nat_of_le_succ fun i => ?_
    rcases Nat.lt_or_ge i fields.length with hi | hi
    · rw [hnext i _ (List.getElem?_eq_getElem hi)]
      have := bytes_nonneg hsolid fields[i].2
      omega
    · rw [hlast i hi, hlast (i + 1) (Nat.le_succ_of_le hi)]
  have hfirst : r.fieldOffset a 0 = 0 := by simp [hoffset]
  refine ⟨hfirst, hnext, hlast _ (Nat.le_refl _), fun x hx hx' => ?_⟩
  have hiff : ∀ i, (r.fieldOffset a i ≤ x ∧ x < r.fieldOffset a (i + 1)) ↔
      ∃ f, fields[i]? = some f ∧ r.fieldOffset a i ≤ x ∧ x < r.fieldOffset a i + r.bytes f.2 := by
    intro i
    constructor
    · rintro ⟨hle, hlt⟩
      have hi : i < fields.length := by
        by_contra hge
        rw [hlast i (Nat.not_lt.mp hge)] at hle
        omega
      have hf := List.getElem?_eq_getElem hi
      exact ⟨_, hf, hle, hnext i _ hf ▸ hlt⟩
    · rintro ⟨f, hf, hle, hlt⟩
      exact ⟨hle, hnext i f hf ▸ hlt⟩
  simp only [← hiff]
  exact existsUnique_interval (fun _ _ hle => hmono hle) (hfirst ▸ hx) (hlast _ (Nat.le_refl _) ▸ hx')

theorem element_within {length : Int} {e : TypeId} (hform : r.form a = .arr length e) {k : Int} (hk : 0 ≤ k)
    (hlt : k < length) : 0 ≤ k * r.bytes e ∧ k * r.bytes e + r.bytes e ≤ r.bytes a := by
  have hnonneg := bytes_nonneg hsolid e
  refine ⟨Int.mul_nonneg hk hnonneg, ?_⟩
  calc k * r.bytes e + r.bytes e = (k + 1) * r.bytes e := by rw [Int.add_mul, Int.one_mul]
    _ ≤ length * r.bytes e := Int.mul_le_mul_of_nonneg_right hlt hnonneg
    _ = r.bytes a := (bytes_arr hbytes hform).symm

end

end Registry

namespace Program

variable {p : Program} {b : Bindings} {t : Typing}

theorem Typings.components (h : p.Typings t) {a : TypeId} {fields : List (String × TypeId)}
    (hform : t.registry.form a = .record fields) : ∃ mark components, p.Has (.type (.record mark components)) ∧
      List.Forall₂ (fun d f => d.name = f.1 ∧ t.declTypes[Decl.id d]? = some f.2) components fields := by
  obtain ⟨_, s, hs, hwidens, hnew, hdecls, -⟩ := h.resolved
  have hlt : t.registry.actual a < s.typing.registry.size := by
    by_contra hge
    have hplain := hnew _ (Nat.not_lt.mp hge)
    rw [show t.registry.get (t.registry.actual a) = _ from hform] at hplain
    cases hplain
  have hget : s.typing.registry.get (t.registry.actual a) = .record fields := (hwidens.get _ hlt).symm.trans hform
  obtain ⟨u, hu, hcomposite, hnoted⟩ := (hs.lists _).composite (by rw [hget]; rfl)
  have hdenotes := hs.denotes hu hnoted
  cases u with
  | atom | named | ptr => cases hcomposite
  | arr =>
    obtain ⟨n, e, -, -, hget'⟩ := hdenotes
    cases hget.symm.trans hget'
  | record mark components =>
    obtain ⟨fields', hget', hfields⟩ := hdenotes
    cases hget.symm.trans hget'
    exact ⟨mark, components, hu, hdecls ▸ hfields⟩

theorem Typings.noted_lt (h : p.Typings t) {id : NodeId} {a : TypeId}
    (ha : t.declTypes[id]? = some a ∨ t.typeTypes[id]? = some a ∨ t.exprTypes[id]? = some a) :
    a < t.registry.size := by
  obtain ⟨_, s, hs, hwidens, -, hdecls, htypes⟩ := h.resolved
  rcases ha with ha | ha | ha
  · exact Nat.lt_of_lt_of_le (hs.sound.decls id a (hdecls ▸ ha)) hwidens.size
  · exact Nat.lt_of_lt_of_le (hs.sound.types id a (htypes ▸ ha)) hwidens.size
  · exact h.exprs id a ha

/-- Sizes are exact. In a program whose types are accepted, the types of all nodes are entered, and the bytes of every
type are found: they are those that the type takes over the integers, whole words and not fewer than none. The
components of a record, in the order of their declarations, tile it, and the elements of an array are in it. -/
theorem sizes_exact {src : String} (hparse : (Program.parse src).1 = .ok p) (hbind : p.bind = .ok b)
    (htyping : p.typing b = .ok t) :
    (∀ (id : NodeId) a, t.declTypes[id]? = some a ∨ t.typeTypes[id]? = some a ∨ t.exprTypes[id]? = some a →
      a < t.registry.size) ∧
    (∀ a < t.registry.size, ∃ n, t.registry.bytes? a = some n ∧ t.registry.bytes a = n ∧ 0 ≤ n ∧ Word.size ∣ n ∧
      ∀ m, t.registry.Occupies a m ↔ m = n) ∧
    (∀ a < t.registry.size, ∀ fields, t.registry.fields? a = some fields → t.registry.Tiles a fields ∧
      ∃ mark components, p.Has (.type (.record mark components)) ∧
        List.Forall₂ (fun d f => d.name = f.1 ∧ t.declTypes[Decl.id d]? = some f.2) components fields) ∧
    ∀ a < t.registry.size, ∀ length element, t.registry.form a = .arr length element → ∀ k, 0 ≤ k → k < length →
      0 ≤ k * t.registry.bytes element ∧
        k * t.registry.bytes element + t.registry.bytes element ≤ t.registry.bytes a := by
  have h := (formed_parse hparse).typing hbind htyping
  refine ⟨fun id a => h.noted_lt, fun a _ => ?_, fun a _ fields hfields => ?_, fun a _ length element hform k => ?_⟩
  · obtain ⟨n, hn⟩ := h.exists_bytes a
    have hoccupies := Registry.occupies_of_bytesTo h.named hn
    exact ⟨n, hn, Registry.bytes_of_bytes? hn, Registry.bytesTo_nonneg h.solid hn, hoccupies.dvd,
      fun m => ⟨fun hm => hm.unique hoccupies, fun heq => heq ▸ hoccupies⟩⟩
  · have hform := Registry.fields?_eq_some.mp hfields
    exact ⟨Registry.tiles h.exists_bytes h.solid hform, h.components hform⟩
  · exact Registry.element_within h.exists_bytes h.solid hform

/-- Rows of cells, of which each type is declared after it is used. -/
def forwardGrid : String :=
  "var g: grid; typ grid: arr[3] row; typ row: rec(cells: arr[2] cell, up: ptr grid); " ++
    "typ cell: rec(value: int, mark: char); fun main(): char = g[2].cells[1].mark;"

/-- A row is two cells of two words each and a pointer, and the grid is three rows. -/
theorem forwardGrid_exact : ∃ p b t d a, (Program.parse forwardGrid).1 = .ok p ∧ p.bind = .ok b ∧
    p.typing b = .ok t ∧ d ∈ p.decls ∧ t.declTypes[d.id]? = some a ∧ t.registry.bytes? a = some 120 ∧
    t.registry.Occupies a 120 := by
  have h : ((Program.parse forwardGrid).1.toOption.bind fun p => p.bind.toOption.bind fun b =>
      (p.typing b).toOption.bind fun t => p.decls.head?.bind fun d => t.declTypes[d.id]?.map fun a =>
        t.registry.bytes? a) = some (some 120) := by
    unfold forwardGrid
    rw [← String.ofList_append, parse_ofList]
    decide +kernel
  simp only [Option.bind_eq_some_iff, Option.map_eq_some_iff, toOption_eq_some] at h
  obtain ⟨p, hp, b, hb, t, ht, d, hd, a, ha, hbytes⟩ := h
  obtain ⟨hnoted, hsizes, -⟩ := sizes_exact hp hb ht
  obtain ⟨n, hn, -, -, -, hoccupies⟩ := hsizes a (hnoted d.id a (.inl ha))
  obtain rfl : n = 120 := Option.some.inj (hn.symm.trans hbytes)
  exact ⟨p, b, t, d, a, hp, hb, ht, List.mem_of_head? hd, ha, hbytes, (hoccupies 120).mpr rfl⟩

end Program

end MmixCompiler
