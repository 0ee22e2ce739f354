import MmixCompiler.Proofs.Except

/-! Computations with a state that may fail. `Gives x s a s'` says that `x` returns `a` and turns the
state `s` into `s'`. `Meets x s post fault` says what is known of the outcome, be it a result or a
failure; for a sequence it is what the parts meet, one after the other. -/

namespace MmixCompiler

variable {ε σ α β : Type} {s s' : σ} {x : ExceptT ε (StateM σ) α}

/-- The outcome of a computation, and the state it leaves. -/
def outcome (x : ExceptT ε (StateM σ) α) (s : σ) : Except ε α × σ := x.run.run s

def Gives (x : ExceptT ε (StateM σ) α) (s : σ) (a : α) (s' : σ) : Prop := outcome x s = (.ok a, s')

/-- A result and its state satisfy `post`, and a failure satisfies `fault`. -/
def Meets (x : ExceptT ε (StateM σ) α) (s : σ) (post : α → σ → Prop) (fault : ε → Prop) : Prop :=
  match outcome x s with
  | (.ok a, s') => post a s'
  | (.error e, _) => fault e

theorem Gives.det {a b : α} {s₁ s₂ : σ} (h : Gives x s a s₁) (h' : Gives x s b s₂) : a = b ∧ s₁ = s₂ := by
  have := h.symm.trans h'
  simpa using this

theorem outcome_bind (x : ExceptT ε (StateM σ) α) (f : α → ExceptT ε (StateM σ) β) (s : σ) :
    outcome (x >>= f) s = match outcome x s with
      | (.ok a, s₁) => outcome (f a) s₁
      | (.error e, s₁) => (.error e, s₁) := by
  change (fun p : Except ε α × σ => ExceptT.bindCont f p.1 p.2) (outcome x s) = _
  rcases outcome x s with ⟨_ | a, s₁⟩ <;> rfl

@[simp] theorem gives_pure {a b : α} : Gives (pure a : ExceptT ε (StateM σ) α) s b s' ↔ a = b ∧ s = s' := by
  change (Except.ok a, s) = (.ok b, s') ↔ _
  simp

@[simp] theorem gives_bind {f : α → ExceptT ε (StateM σ) β} {b : β} :
    Gives (x >>= f) s b s' ↔ ∃ a s₁, Gives x s a s₁ ∧ Gives (f a) s₁ b s' := by
  simp only [Gives, outcome_bind]
  rcases outcome x s with ⟨_ | a, s₁⟩
  · simp
  · simp [and_assoc]

@[simp] theorem gives_lift {r : Except ε α} {a : α} :
    Gives (liftM r : ExceptT ε (StateM σ) α) s a s' ↔ r = .ok a ∧ s = s' := by
  change (r, s) = (.ok a, s') ↔ _
  simp

@[simp] theorem gives_mapM_nil {f : α → ExceptT ε (StateM σ) β} {ys : List β} :
    Gives ([].mapM f) s ys s' ↔ ys = [] ∧ s = s' := by
  rw [List.mapM_nil, gives_pure, eq_comm]

theorem gives_mapM_cons {f : α → ExceptT ε (StateM σ) β} {x : α} {xs : List α} {ys : List β} :
    Gives ((x :: xs).mapM f) s ys s' ↔
      ∃ y s₁ ys', Gives (f x) s y s₁ ∧ Gives (xs.mapM f) s₁ ys' s' ∧ ys = y :: ys' := by
  rw [List.mapM_cons]
  simp only [gives_bind, gives_pure]
  constructor
  · rintro ⟨y, s₁, hy, ys', s₂, hys, rfl, rfl⟩
    exact ⟨y, s₁, ys', hy, hys, rfl⟩
  · rintro ⟨y, s₁, ys', hy, hys, rfl⟩
    exact ⟨y, s₁, hy, ys', s', hys, rfl, rfl⟩

theorem exists_gives_mapM {f : α → ExceptT ε (StateM σ) β} {xs : List α}
    (h : ∀ x ∈ xs, ∀ s, ∃ y s', Gives (f x) s y s') (s : σ) :
    ∃ ys s', Gives (xs.mapM f) s ys s' := by
  induction xs generalizing s with
  | nil => exact ⟨[], s, gives_mapM_nil.mpr ⟨rfl, rfl⟩⟩
  | cons x xs ih =>
    obtain ⟨y, s₁, hy⟩ := h x List.mem_cons_self s
    obtain ⟨ys, s', hys⟩ := ih (fun x hx => h x (List.mem_cons_of_mem _ hx)) s₁
    exact ⟨y :: ys, s', gives_mapM_cons.mpr ⟨y, s₁, ys, hy, hys, rfl⟩⟩

section
variable {post post' : α → σ → Prop} {fault fault' : ε → Prop}

theorem Gives.meets {a : α} (h : Gives x s a s') (ha : post a s') : Meets x s post fault := by
  rw [Meets, show outcome x s = _ from h]
  exact ha

theorem Meets.of_gives (h : Meets x s post fault) {a : α} (hx : Gives x s a s') : post a s' := by
  rwa [Meets, show outcome x s = _ from hx] at h

theorem Meets.of_error (h : Meets x s post fault) {e : ε} (hx : (outcome x s).1 = .error e) : fault e := by
  unfold Meets at h
  revert h hx
  rcases outcome x s with ⟨_ | a, s'⟩
  · rintro h ⟨⟩
    exact h
  · nofun

theorem Meets.exists_gives (h : Meets x s post fun _ => False) : ∃ a s', Gives x s a s' ∧ post a s' := by
  unfold Meets at h
  rcases hx : outcome x s with ⟨_ | a, s'⟩
  · rw [hx] at h
    exact h.elim
  · rw [hx] at h
    exact ⟨a, s', hx, h⟩

theorem Meets.imp (h : Meets x s post fault) (hpost : ∀ a s', post a s' → post' a s')
    (hfault : ∀ e, fault e → fault' e) : Meets x s post' fault' := by
  unfold Meets at h ⊢
  revert h
  rcases outcome x s with ⟨e | a, s'⟩
  · exact hfault e
  · exact hpost a s'

theorem Meets.mono (h : Meets x s post fault) (hpost : ∀ a s', post a s' → post' a s') :
    Meets x s post' fault := h.imp hpost fun _ => id

theorem Meets.and (h : Meets x s post fault)
    (h' : Meets x s post' fun _ => True) : Meets x s (fun a s' => post a s' ∧ post' a s') fault := by
  unfold Meets at h h' ⊢
  revert h h'
  rcases outcome x s with ⟨e | a, s'⟩
  · exact fun h _ => h
  · exact And.intro

@[simp] theorem meets_pure {a : α} : Meets (pure a : ExceptT ε (StateM σ) α) s post fault ↔ post a s := Iff.rfl

@[simp] theorem meets_bind {x : ExceptT ε (StateM σ) β} {f : β → ExceptT ε (StateM σ) α} :
    Meets (x >>= f) s post fault ↔ Meets x s (fun b s' => Meets (f b) s' post fault) fault := by
  unfold Meets
  rw [outcome_bind]
  rcases outcome x s with ⟨_ | b, s'⟩ <;> rfl

theorem Meets.bind {f : α → ExceptT ε (StateM σ) β} {mid : β → σ → Prop} (h : Meets x s post fault)
    (hf : ∀ a s', post a s' → Meets (f a) s' mid fault) : Meets (x >>= f) s mid fault :=
  meets_bind.mpr (h.mono hf)

@[simp] theorem meets_throw {e : ε} : Meets (throw e : ExceptT ε (StateM σ) α) s post fault ↔ fault e := Iff.rfl

theorem meets_liftM {r : Except ε α} :
    Meets (liftM r : ExceptT ε (StateM σ) α) s post fault ↔ Results r (fun a => post a s) fault := by
  cases r <;> rfl

@[simp] theorem meets_get {post : σ → σ → Prop} :
    Meets (get : ExceptT ε (StateM σ) σ) s post fault ↔ post s s := Iff.rfl

@[simp] theorem meets_set {t : σ} {post : PUnit → σ → Prop} :
    Meets (set t : ExceptT ε (StateM σ) PUnit) s post fault ↔ post ⟨⟩ t := Iff.rfl

@[simp] theorem meets_modify {f : σ → σ} {post : PUnit → σ → Prop} :
    Meets (modify f : ExceptT ε (StateM σ) PUnit) s post fault ↔ post ⟨⟩ (f s) := Iff.rfl

@[simp] theorem meets_modifyGet {f : σ → α × σ} :
    Meets (modifyGet f : ExceptT ε (StateM σ) α) s post fault ↔ post (f s).1 (f s).2 := Iff.rfl

/-- Every step of a loop keeps what is known and gives something that later steps keep. -/
theorem meets_mapM {xs : List β} {f : β → ExceptT ε (StateM σ) α} {I : σ → Prop} {R : σ → σ → Prop}
    {C : β → α → σ → Prop} (hrefl : ∀ s, R s s) (htrans : ∀ s₁ s₂ s₃, R s₁ s₂ → R s₂ s₃ → R s₁ s₃)
    (hkeep : ∀ x y s₁ s₂, C x y s₁ → R s₁ s₂ → C x y s₂)
    (h : ∀ x ∈ xs, ∀ s, I s → Meets (f x) s (fun y s' => I s' ∧ R s s' ∧ C x y s') fault) (hs : I s) :
    Meets (xs.mapM f) s (fun ys s' => I s' ∧ R s s' ∧ List.Forall₂ (fun x y => C x y s') xs ys) fault := by
  induction xs generalizing s with
  | nil => exact ⟨hs, hrefl s, .nil⟩
  | cons x xs ih =>
    rw [List.mapM_cons]
    apply (h x List.mem_cons_self s hs).bind
    rintro y s₁ ⟨hs₁, hr, hy⟩
    apply (ih (fun x hx => h x (List.mem_cons_of_mem _ hx)) hs₁).bind
    rintro ys s₂ ⟨hs₂, hr', hys⟩
    rw [meets_pure]
    exact ⟨hs₂, htrans _ _ _ hr hr', .cons (hkeep _ _ _ _ hy hr') hys⟩

/-- Every step of a loop keeps what is known and achieves something that later steps keep. -/
theorem meets_forM {xs : List β} {f : β → ExceptT ε (StateM σ) PUnit} {I : σ → Prop} {R : σ → σ → Prop}
    {C : β → σ → Prop} (hrefl : ∀ s, R s s) (htrans : ∀ s₁ s₂ s₃, R s₁ s₂ → R s₂ s₃ → R s₁ s₃)
    (hkeep : ∀ x s₁ s₂, C x s₁ → R s₁ s₂ → C x s₂)
    (h : ∀ x ∈ xs, ∀ s, I s → Meets (f x) s (fun _ s' => I s' ∧ R s s' ∧ C x s') fault) (hs : I s) :
    Meets (xs.forM f) s (fun _ s' => I s' ∧ R s s' ∧ ∀ x ∈ xs, C x s') fault := by
  induction xs generalizing s with
  | nil => exact ⟨hs, hrefl s, by simp⟩
  | cons x xs ih =>
    refine meets_bind.mpr ?_
    apply (h x List.mem_cons_self s hs).mono
    rintro _ s₁ ⟨hs₁, hr, hx⟩
    apply (ih (fun x hx => h x (List.mem_cons_of_mem _ hx)) hs₁).mono
    rintro _ s₂ ⟨hs₂, hr', hxs⟩
    exact ⟨hs₂, htrans _ _ _ hr hr', List.forall_mem_cons.mpr ⟨hkeep x _ _ hx hr', hxs⟩⟩

end

end MmixCompiler
