import Mathlib.Data.List.Forall2

/-! Computations that may fail: a sequence gives a result exactly if its parts do, and a list of
them exactly if each does. -/

namespace MmixCompiler

variable {ε α β : Type}

theorem bind_eq_ok {x : Except ε α} {f : α → Except ε β} {b : β} : x >>= f = .ok b ↔ ∃ a, x = .ok a ∧ f a = .ok b := by
  cases x with
  | error e => simp [bind, Except.bind]
  | ok a => simp [bind, Except.bind]

theorem bind_eq_error {x : Except ε α} {f : α → Except ε β} {e : ε} :
    x >>= f = .error e ↔ x = .error e ∨ ∃ a, x = .ok a ∧ f a = .error e := by
  cases x with
  | error e => simp [bind, Except.bind]
  | ok a => simp [bind, Except.bind]

/-- A result satisfies `post`, and a failure satisfies `fault`. -/
def Results (x : Except ε α) (post : α → Prop) (fault : ε → Prop) : Prop :=
  match x with
  | .ok a => post a
  | .error e => fault e

section
variable {post : α → Prop} {fault : ε → Prop}

@[simp] theorem results_pure {a : α} : Results (pure a : Except ε α) post fault ↔ post a := Iff.rfl

@[simp] theorem results_ok {a : α} : Results (.ok a : Except ε α) post fault ↔ post a := Iff.rfl

@[simp] theorem results_bind {x : Except ε β} {f : β → Except ε α} :
    Results (x >>= f) post fault ↔ Results x (fun b => Results (f b) post fault) fault := by
  cases x <;> rfl

theorem Results.mono {x : Except ε α} {post' : α → Prop} (h : Results x post fault) (hpost : ∀ a, post a → post' a) :
    Results x post' fault := by
  cases x with
  | ok a => exact hpost a h
  | error e => exact h

theorem Results.of_error {x : Except ε α} (h : Results x post fault) {e : ε} (hx : x = .error e) : fault e := by
  subst hx
  exact h

theorem results_foldlM {xs : List β} {f : α → β → Except ε α} {I : α → Prop}
    (h : ∀ x ∈ xs, ∀ a, I a → Results (f a x) I fault) {a : α} (ha : I a) : Results (xs.foldlM f a) I fault := by
  induction xs generalizing a with
  | nil => exact ha
  | cons x xs ih =>
    rw [List.foldlM_cons, results_bind]
    exact (h x List.mem_cons_self a ha).mono fun b hb => ih (fun x hx => h x (List.mem_cons_of_mem _ hx)) hb

theorem exists_of_foldlM_eq_ok {xs : List β} {f : α → β → Except ε α} {a b : α} (h : xs.foldlM f a = .ok b) {x : β}
    (hx : x ∈ xs) : ∃ a b, f a x = .ok b := by
  induction xs generalizing a with
  | nil => cases hx
  | cons y ys ih =>
    rw [List.foldlM_cons, bind_eq_ok] at h
    obtain ⟨c, hc, h⟩ := h
    rcases List.mem_cons.mp hx with rfl | hx
    · exact ⟨a, c, hc⟩
    · exact ih h hx

theorem foldlM_iff {xs : List β} {f : α → β → Except ε α} {R : α → Prop} {S : β → Prop}
    (hstep : ∀ a x b, f a x = .ok b → (R b ↔ R a ∨ S x)) {a b : α} (h : xs.foldlM f a = .ok b) :
    R b ↔ R a ∨ ∃ x ∈ xs, S x := by
  induction xs generalizing a with
  | nil =>
    cases h
    simp
  | cons x xs ih =>
    rw [List.foldlM_cons, bind_eq_ok] at h
    obtain ⟨c, hc, h⟩ := h
    simp [ih h, hstep a x c hc, or_assoc]

end

theorem toOption_eq_some {x : Except ε α} {a : α} : x.toOption = some a ↔ x = .ok a := by
  cases x <;> simp [Except.toOption]

def failure? : Except ε α → Option ε
  | .ok _ => none
  | .error e => some e

theorem failure?_eq_some {x : Except ε α} {e : ε} : failure? x = some e ↔ x = .error e := by
  cases x <;> simp [failure?]

theorem mapM_eq_ok {f : α → Except ε β} {xs : List α} {ys : List β} :
    xs.mapM f = .ok ys ↔ List.Forall₂ (fun x y => f x = .ok y) xs ys := by
  induction xs generalizing ys with
  | nil => simp [pure, Except.pure, eq_comm]
  | cons x xs ih =>
    rw [List.mapM_cons]
    simp only [bind_eq_ok, ih, List.forall₂_cons_left_iff]
    constructor
    · rintro ⟨y, hy, ys', hys, h⟩
      exact ⟨y, ys', hy, hys, (Except.ok.inj h).symm⟩
    · rintro ⟨y, ys', hy, hys, rfl⟩
      exact ⟨y, hy, ys', hys, rfl⟩

theorem exists_bind_eq_ok {x : Except ε α} {f : α → Except ε β} (hx : ∃ a, x = .ok a) (hf : ∀ a, ∃ b, f a = .ok b) :
    ∃ b, x >>= f = .ok b := by
  obtain ⟨a, ha⟩ := hx
  obtain ⟨b, hb⟩ := hf a
  exact ⟨b, bind_eq_ok.mpr ⟨a, ha, hb⟩⟩

theorem exists_mapM_eq_ok {f : α → Except ε β} {xs : List α} (h : ∀ x ∈ xs, ∃ y, f x = .ok y) :
    ∃ ys, xs.mapM f = .ok ys := by
  induction xs with
  | nil => exact ⟨[], rfl⟩
  | cons x xs ih =>
    obtain ⟨y, hy⟩ := h x List.mem_cons_self
    obtain ⟨ys, hys⟩ := ih fun x hx => h x (List.mem_cons_of_mem _ hx)
    exact ⟨y :: ys, mapM_eq_ok.mpr (.cons hy (mapM_eq_ok.mp hys))⟩

variable {r : α → β → Prop} {xs : List α} {ys : List β}

section

variable (h : List.Forall₂ r xs ys)

include h

theorem exists_left_of_forall₂ {y : β} (hy : y ∈ ys) : ∃ x ∈ xs, r x y := by
  induction h with
  | nil => simp at hy
  | cons hxy _ ih => grind

theorem exists_right_of_forall₂ {x : α} (hx : x ∈ xs) : ∃ y ∈ ys, r x y := by
  induction h with
  | nil => simp at hx
  | cons hxy _ ih => grind

theorem pairwise_of_forall₂ {q : α → α → Prop} (hxs : xs.Pairwise q) :
    ys.Pairwise fun y y' => ∃ x ∈ xs, ∃ x' ∈ xs, q x x' ∧ r x y ∧ r x' y' := by
  induction h with
  | nil => exact .nil
  | @cons x y xs ys hxy hrest ih =>
    obtain ⟨hx, hxs⟩ := List.pairwise_cons.mp hxs
    refine List.pairwise_cons.mpr ⟨fun y' hy' => ?_, (ih hxs).imp ?_⟩
    · obtain ⟨x', hx', hr⟩ := exists_left_of_forall₂ hrest hy'
      exact ⟨x, List.mem_cons_self, x', List.mem_cons_of_mem _ hx', hx x' hx', hxy, hr⟩
    · rintro y y' ⟨x₁, hx₁, x₂, hx₂, hpair⟩
      exact ⟨x₁, List.mem_cons_of_mem _ hx₁, x₂, List.mem_cons_of_mem _ hx₂, hpair⟩

theorem forall₂_comp {γ : Type} {q : β → γ → Prop} {zs : List γ} (h' : List.Forall₂ q ys zs) :
    List.Forall₂ (fun x z => ∃ y, r x y ∧ q y z) xs zs := by
  induction h generalizing zs with
  | nil =>
    cases h'
    exact .nil
  | cons hxy _ ih =>
    cases h' with
    | cons hyz hrest => exact .cons ⟨_, hxy, hyz⟩ (ih hrest)

theorem rel_getElem?_of_forall₂ {n : Nat} {x : α} {y : β}
    (hx : xs[n]? = some x) (hy : ys[n]? = some y) : r x y := by
  induction h generalizing n with
  | nil => simp at hx
  | cons hxy _ ih =>
    cases n with
    | zero => simp_all
    | succ n => exact ih (by simpa using hx) (by simpa using hy)

theorem exists_getElem?_of_forall₂ {n : Nat} {x : α} (hx : xs[n]? = some x) :
    ∃ y, ys[n]? = some y ∧ r x y := by
  obtain ⟨hn, rfl⟩ := List.getElem?_eq_some_iff.mp hx
  have hn' : n < ys.length := h.length_eq ▸ hn
  exact ⟨ys[n], List.getElem?_eq_getElem hn', h.get hn hn'⟩

end

end MmixCompiler
