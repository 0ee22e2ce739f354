import Mathlib.Data.Finset.Card
import Mathlib.Data.Nat.Find
import MmixCompiler.Types.Containment

/-! How a registry grows: types are entered at its end, and a named type may be given a definition. -/

namespace MmixCompiler

def Ty.isComposite : Ty → Bool
  | .arr .. | .record _ => true
  | _ => false

def Ty.targets : Ty → List TypeId
  | .ptr t | .arr _ t | .named _ (some t) => [t]
  | .record fields => fields.map Prod.snd
  | .int | .char | .bool | .void | .named _ none => []

/-- Arrays have elements, and records have components of different names. -/
def Ty.Solid : Ty → Prop
  | .arr length _ => 0 < length
  | .record fields => fields ≠ [] ∧ (fields.map Prod.fst).Nodup
  | _ => True

namespace Registry

variable {r r' r'' : Registry} {t i : Nat} {y : Ty}

theorem get_of_size_le (h : r.size ≤ i) : r.get i = .void := by
  have hnone : r.types[i]? = none := Array.getElem?_eq_none_iff.mpr h
  simp [get, Array.getD_eq_getD_getElem?, hnone]

@[simp] theorem size_add : (r.add y).2.size = r.size + 1 := Array.size_push ..

@[simp] theorem fst_add : (r.add y).1 = r.size := rfl

theorem get_add : (r.add y).2.get i = if i = r.size then y else r.get i := by
  simp only [get, add, size, Array.getD_eq_getD_getElem?, Array.getElem?_push]
  split <;> rfl

@[simp] theorem size_define : (r.define t i).size = r.size := by
  unfold define
  split
  · exact Array.size_setIfInBounds ..
  · rfl

theorem get_define_of_ne {d : TypeId} (h : i ≠ t) : (r.define t d).get i = r.get i := by
  unfold define
  split
  · have hne : t ≠ i := fun heq => h heq.symm
    simp [get, Array.getD_eq_getD_getElem?, hne]
  · rfl

theorem get_define_self {d : TypeId} {name : String} {old : Option TypeId} (h : r.get t = .named name old) :
    (r.define t d).get t = .named name (some d) := by
  have hlt : t < r.types.size := by
    by_contra hge
    rw [get_of_size_le (Nat.not_lt.mp hge)] at h
    cases h
  unfold define
  rw [h]
  simp [get, Array.getD_eq_getD_getElem?, hlt]

theorem get_define (r : Registry) (t d i : TypeId) : (r.define t d).get i = r.get i ∨
    i = t ∧ ∃ name old, r.get i = .named name old ∧ (r.define t d).get i = .named name (some d) := by
  by_cases hi : i = t
  · subst hi
    cases hget : r.get i with
    | named name old => exact .inr ⟨rfl, name, old, rfl, get_define_self hget⟩
    | _ => exact .inl (by simp [define, hget])
  · exact .inl (get_define_of_ne hi)

/-- A registry with more types in it, and more definitions. -/
structure Extends (r r' : Registry) : Prop where
  size : r.size ≤ r'.size
  get : ∀ i < r.size, r'.get i = r.get i ∨
    ∃ name old d, r.get i = .named name old ∧ r'.get i = .named name (some d)

namespace Extends

theorem refl (r : Registry) : r.Extends r := ⟨Nat.le_refl _, fun _ _ => .inl rfl⟩

theorem trans (h : r.Extends r') (h' : r'.Extends r'') : r.Extends r'' := by
  refine ⟨Nat.le_trans h.size h'.size, fun i hi => ?_⟩
  rcases h.get i hi with heq | ⟨name, old, d, hold, hnew⟩
  · rcases h'.get i (Nat.lt_of_lt_of_le hi h.size) with heq' | ⟨name, old, d, hold, hnew⟩
    · exact .inl (heq'.trans heq)
    · exact .inr ⟨name, old, d, heq ▸ hold, hnew⟩
  · right
    rcases h'.get i (Nat.lt_of_lt_of_le hi h.size) with heq' | ⟨name', old', d', hold', hnew'⟩
    · exact ⟨name, old, d, hold, heq'.trans hnew⟩
    · cases hnew.symm.trans hold'
      exact ⟨name, old, d', hold, hnew'⟩

theorem add (r : Registry) (y : Ty) : r.Extends (r.add y).2 := by
  refine ⟨by simp, fun i hi => .inl ?_⟩
  rw [get_add, if_neg (Nat.ne_of_lt hi)]

theorem define (r : Registry) (t d : TypeId) : r.Extends (r.define t d) := by
  refine ⟨by simp, fun i _ => ?_⟩
  rcases get_define r t d i with h | ⟨-, name, old, hold, hnew⟩
  · exact .inl h
  · exact .inr ⟨name, old, d, hold, hnew⟩

theorem get_of_ne_named (h : r.Extends r') (hi : r.get i = y) (hy : ∀ name d, y ≠ .named name d)
    (hvoid : y ≠ .void) : r'.get i = y := by
  have hlt : i < r.size := by
    by_contra hge
    exact hvoid (hi.symm.trans (get_of_size_le (Nat.not_lt.mp hge)))
  rcases h.get i hlt with heq | ⟨name, old, d, hold, -⟩
  · exact heq.trans hi
  · exact absurd (hi.symm.trans hold) (hy name old)

theorem isComposite (h : r.Extends r') (hlt : i < r.size) (hi : (r'.get i).isComposite) : (r.get i).isComposite := by
  rcases h.get i hlt with heq | ⟨_, _, _, -, hnew⟩
  · rwa [← heq]
  · simp [hnew, Ty.isComposite] at hi

end Extends

theorem ptr_cases (r : Registry) (t : TypeId) :
    (r.ptr t).2 = r ∧ (r.ptr t).1 < r.size ∧ r.get (r.ptr t).1 = .ptr t ∨ r.ptr t = r.add (.ptr t) := by
  unfold ptr
  split
  · next i hi =>
    obtain ⟨hlt, hi, -⟩ := Array.findIdx?_eq_some_iff_getElem.mp hi
    refine .inl ⟨rfl, hlt, ?_⟩
    simpa [get, Array.getD_eq_getD_getElem?, hlt] using hi
  · exact .inr rfl

/-- Every type that an entry refers to is entered. -/
def Closed (r : Registry) : Prop := ∀ i < r.size, ∀ j ∈ (r.get i).targets, j < r.size

theorem closed_initial : initial.Closed := by
  intro i hi j hj
  have hnil : ∀ i < 4, (initial.get i).targets = [] := by decide
  simp [hnil i hi] at hj

theorem Closed.add (h : r.Closed) (hy : ∀ j ∈ y.targets, j < r.size) : (r.add y).2.Closed := by
  intro i hi j hj
  rw [get_add] at hj
  rw [size_add] at hi ⊢
  split at hj
  · exact Nat.lt_succ_of_lt (hy j hj)
  · exact Nat.lt_succ_of_lt (h i (by omega) j hj)

theorem Closed.define (h : r.Closed) {d : TypeId} (hd : d < r.size) : (r.define t d).Closed := by
  intro i hi j hj
  rw [size_define] at hi ⊢
  rcases get_define r t d i with heq | ⟨-, name, old, -, hnew⟩
  · exact h i hi j (heq ▸ hj)
  · rw [hnew] at hj
    simp only [Ty.targets, List.mem_singleton] at hj
    exact hj ▸ hd

def next? (r : Registry) (t : TypeId) : Option TypeId :=
  match r.get t with
  | .named _ (some d) => some d
  | _ => none

theorem next?_eq_some {d : TypeId} : r.next? t = some d ↔ ∃ name, r.get t = .named name (some d) := by
  unfold next?
  split
  · next name e heq => simp [heq]
  · next h => simpa using fun name => h name d

theorem next?_eq_none : r.next? t = none ↔ ∀ name d, r.get t ≠ .named name (some d) := by
  rw [Option.eq_none_iff_forall_not_mem]
  simp only [Option.mem_def, next?_eq_some, not_exists]
  exact forall_comm

theorem lt_of_next? {d : TypeId} (h : r.next? t = some d) : t < r.size := by
  obtain ⟨name, h⟩ := next?_eq_some.mp h
  by_contra hge
  rw [get_of_size_le (Nat.not_lt.mp hge)] at h
  cases h

theorem Closed.next? (h : r.Closed) {d : TypeId} (hd : r.next? t = some d) : d < r.size := by
  obtain ⟨name, hget⟩ := next?_eq_some.mp hd
  exact h t (lt_of_next? hd) d (by simp [hget, Ty.targets])

theorem follow_succ (n : Nat) : r.follow (n + 1) t = match r.next? t with
    | some d => r.follow n d
    | none => t := by
  rw [follow, Registry.next?]
  split <;> simp_all

theorem follow_of_rest (h : r.next? t = none) (n : Nat) : r.follow n t = t := by
  cases n with
  | zero => rfl
  | succ n => rw [follow_succ, h]

theorem follow_add (m n : Nat) : r.follow (m + n) t = r.follow n (r.follow m t) := by
  induction m generalizing t with
  | zero => rw [Nat.zero_add, follow]
  | succ m ih =>
    rw [Nat.succ_add, follow_succ, follow_succ]
    cases h : r.next? t with
    | some d => exact ih
    | none => exact (follow_of_rest h n).symm

theorem follow_of_le {m n : Nat} (h : r.next? (r.follow m t) = none) (hle : m ≤ n) : r.follow n t = r.follow m t := by
  obtain ⟨k, rfl⟩ := Nat.exists_eq_add_of_le hle
  rw [follow_add, follow_of_rest h]

/-- The way to a type that is no defined name never comes twice by the same name, so it is no longer than
there are types. -/
theorem actual_of_rest {n : Nat} (h : r.next? (r.follow n t) = none) : r.actual t = r.follow n t := by
  obtain ⟨k, hk, hfirst⟩ : ∃ k, r.next? (r.follow k t) = none ∧ ∀ m < k, r.next? (r.follow m t) ≠ none :=
    have hexists : ∃ k, r.next? (r.follow k t) = none := ⟨n, h⟩
    ⟨Nat.find hexists, Nat.find_spec hexists, fun m => Nat.find_min hexists⟩
  have hne : ∀ i j, i < j → j < k → r.follow i t ≠ r.follow j t := fun i j hij hj heq => by
    refine hfirst (i + (k - j)) (by omega) ?_
    rwa [follow_add, heq, ← follow_add, Nat.add_sub_cancel' (Nat.le_of_lt hj)]
  have hinj : Set.InjOn (fun m => r.follow m t) (Finset.range k : Set Nat) := by
    intro i hi j hj heq
    simp only [Finset.coe_range, Set.mem_Iio] at hi hj
    rcases Nat.lt_trichotomy i j with hlt | rfl | hlt
    · exact absurd heq (hne i j hlt hj)
    · rfl
    · exact absurd heq.symm (hne j i hlt hi)
  have hmaps : ∀ m ∈ Finset.range k, r.follow m t ∈ Finset.range r.size := fun m hm => by
    obtain ⟨d, hd⟩ := Option.ne_none_iff_exists'.mp (hfirst m (Finset.mem_range.mp hm))
    exact Finset.mem_range.mpr (lt_of_next? hd)
  have hle : k ≤ r.size := by simpa using Finset.card_le_card_of_injOn _ hmaps hinj
  rw [actual, follow_of_le hk hle]
  rcases Nat.le_total n k with hnk | hkn
  · exact follow_of_le h hnk
  · exact (follow_of_le hk hkn).symm

theorem Closed.follow_lt (h : r.Closed) (ht : t < r.size) (n : Nat) : r.follow n t < r.size := by
  induction n generalizing t with
  | zero => exact ht
  | succ n ih =>
    rw [follow_succ]
    cases hnext : r.next? t with
    | some d => exact ih (h.next? hnext)
    | none => exact ht

theorem Closed.form (h : r.Closed) (ht : t < r.size) {j : TypeId} (hj : j ∈ (r.form t).targets) : j < r.size :=
  h _ (h.follow_lt ht _) j hj

/-- On a way along which two registries agree, they lead to the same type. -/
theorem follow_congr {n : Nat} (h : ∀ m < n, r'.get (r.follow m t) = r.get (r.follow m t)) :
    r'.follow n t = r.follow n t := by
  induction n generalizing t with
  | zero => rfl
  | succ n ih =>
    have hnext : r'.next? t = r.next? t := by
      rw [next?, next?, show r'.get t = r.get t from h 0 (Nat.succ_pos n)]
    rw [follow_succ, follow_succ, hnext]
    cases hd : r.next? t with
    | none => rfl
    | some d =>
      refine ih fun m hm => ?_
      have := h (m + 1) (Nat.succ_lt_succ hm)
      rwa [follow_succ, hd] at this

theorem element?_eq_some {e : TypeId} : r.element? t = some e ↔ ∃ n, r.form t = .arr n e := by
  unfold element?
  split
  · next n d heq => simp [heq]
  · next h => simpa using fun n => h n e

theorem fields?_eq_some {fields : List (String × TypeId)} : r.fields? t = some fields ↔ r.form t = .record fields := by
  unfold fields?
  split
  · next fs heq => simp [heq]
  · next h => exact ⟨by simp, fun heq => absurd heq (h fields)⟩

/-- A registry with more types in it. -/
structure Widens (r r' : Registry) : Prop where
  size : r.size ≤ r'.size
  get : ∀ i < r.size, r'.get i = r.get i

namespace Widens

theorem refl (r : Registry) : r.Widens r := ⟨Nat.le_refl _, fun _ _ => rfl⟩

theorem trans (h : r.Widens r') (h' : r'.Widens r'') : r.Widens r'' :=
  ⟨Nat.le_trans h.size h'.size, fun i hi => (h'.get i (Nat.lt_of_lt_of_le hi h.size)).trans (h.get i hi)⟩

theorem follow (h : r.Widens r') (hr : r.Closed) (ht : t < r.size) (n : Nat) : r'.follow n t = r.follow n t :=
  follow_congr fun m _ => h.get _ (hr.follow_lt ht m)

/-- What is behind a type's names stays, unless there are only names. -/
theorem form (h : r.Widens r') (hr : r.Closed) (ht : t < r.size) : r'.form t = r.form t ∨
    (∃ name d, r.form t = .named name (some d)) ∧ ∃ name d, r'.form t = .named name (some d) := by
  have hnext : ∀ n, r'.next? (r'.follow n t) = r.next? (r.follow n t) := fun n => by
    rw [h.follow hr ht, Registry.next?, Registry.next?, h.get _ (hr.follow_lt ht n)]
  cases hrest : r.next? (r.actual t) with
  | none =>
    left
    rw [Registry.form, actual_of_rest ((hnext r.size).trans hrest), h.follow hr ht, h.get _ (hr.follow_lt ht _)]
    rfl
  | some d =>
    right
    refine ⟨(next?_eq_some.mp hrest).imp fun name hget => ⟨d, hget⟩, ?_⟩
    cases hrest' : r'.next? (r'.actual t) with
    | none =>
      have hsame := (hnext r'.size).symm.trans hrest'
      rw [actual_of_rest hsame, hsame] at hrest
      cases hrest
    | some e => exact (next?_eq_some.mp hrest').imp fun name hget => ⟨e, hget⟩

theorem form_of_ne_named (h : r.Widens r') (hr : r.Closed) (ht : t < r.size) (hform : r.form t = y)
    (hy : ∀ name d, y ≠ .named name d) : r'.form t = y := by
  rcases h.form hr ht with heq | ⟨⟨name, d, hname⟩, -⟩
  · exact heq.trans hform
  · exact absurd (hform.symm.trans hname) (hy name _)

end Widens

end Registry
end MmixCompiler
