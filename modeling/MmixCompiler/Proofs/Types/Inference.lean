import MmixCompiler.Types.Checking

/-! What typing may do. `Yields x s post fault` says what is known of the outcome of a computation, be it
a result or a fault; for a sequence it is what the parts yield, one after the other. -/

namespace MmixCompiler

variable {α β : Type} {s : Typer} {post post' : α → Typer → Prop} {fault fault' : SemanticFault → Prop} {x : Infer α}

/-- A result and its state satisfy `post`, and a fault satisfies `fault`. -/
def Yields (x : Infer α) (s : Typer) (post : α → Typer → Prop) (fault : SemanticFault → Prop) : Prop :=
  match x.run s with
  | .ok (a, s') => post a s'
  | .error e => fault e.fault

namespace Yields

section

variable (h : Yields x s post fault)

include h

theorem of_run {a : α} {s' : Typer} (hx : x.run s = .ok (a, s')) : post a s' := by
  rwa [Yields, hx] at h

theorem of_error {e : SemanticError} (hx : x.run s = .error e) : fault e.fault := by
  rwa [Yields, hx] at h

theorem imp (hpost : ∀ a s', post a s' → post' a s')
    (hfault : ∀ f, fault f → fault' f) : Yields x s post' fault' := by
  unfold Yields at h ⊢
  revert h
  rcases x.run s with e | ⟨a, s'⟩
  · exact hfault e.fault
  · exact hpost a s'

theorem mono (hpost : ∀ a s', post a s' → post' a s') : Yields x s post' fault := h.imp hpost fun _ => id

theorem weaken (hfault : ∀ f, fault f → fault' f) : Yields x s post fault' := h.imp (fun _ _ => id) hfault

end

end Yields

/-- The computation has a result. -/
def Delivers (x : Infer α) (s : Typer) : Prop := Yields x s (fun _ _ => True) fun _ => False

theorem Delivers.exists_run (h : Delivers x s) : ∃ a s', x.run s = .ok (a, s') := by
  cases hrun : x.run s with
  | error e => exact (Yields.of_error h hrun).elim
  | ok r => exact ⟨r.1, r.2, rfl⟩

/-- What is known of the result of a computation is known of the result that it has. -/
theorem Yields.and_delivers (h : Yields x s post fault) (hx : Delivers x s) : Yields x s post fun _ => False := by
  obtain ⟨a, s', hrun⟩ := hx.exists_run
  rw [Yields, hrun] at h ⊢
  exact h

@[simp] theorem yields_pure {a : α} : Yields (pure a) s post fault ↔ post a s := Iff.rfl

@[simp] theorem yields_bind {x : Infer β} {f : β → Infer α} :
    Yields (x >>= f) s post fault ↔ Yields x s (fun b s' => Yields (f b) s' post fault) fault := by
  change (match (x.run s >>= fun r => (f r.1).run r.2 : Except SemanticError (α × Typer)) with
    | .ok (a, s') => post a s'
    | .error e => fault e.fault) ↔ _
  unfold Yields
  rcases x.run s with _ | ⟨b, s'⟩ <;> rfl

theorem Yields.bind {f : α → Infer β} {mid : β → Typer → Prop} (h : Yields x s post fault)
    (hf : ∀ a s', post a s' → Yields (f a) s' mid fault) : Yields (x >>= f) s mid fault :=
  yields_bind.mpr (h.mono hf)

theorem Delivers.bind {x : Infer β} {f : β → Infer α} {post : β → Typer → Prop} (hx : Delivers x s)
    (h : Yields x s post fault) (hf : ∀ b s', post b s' → Delivers (f b) s') : Delivers (x >>= f) s :=
  yields_bind.mpr ((h.and_delivers hx).mono hf)

@[simp] theorem yields_get {post : Typer → Typer → Prop} : Yields get s post fault ↔ post s s := Iff.rfl

@[simp] theorem yields_modify {f : Typer → Typer} {post : PUnit → Typer → Prop} :
    Yields (modify f) s post fault ↔ post ⟨⟩ (f s) := Iff.rfl

@[simp] theorem yields_modifyGet {f : Typer → α × Typer} :
    Yields (modifyGet f) s post fault ↔ post (f s).1 (f s).2 := Iff.rfl

theorem yields_lift {r : Except SemanticError α} : Yields (liftM r : Infer α) s post fault ↔ match r with
    | .ok a => post a s
    | .error e => fault e.fault := by
  cases r <;> rfl

@[simp] theorem yields_registry {post : Registry → Typer → Prop} :
    Yields Infer.registry s post fault ↔ post s.typing.registry s := Iff.rfl

theorem yields_require {holds : Registry → Bool} {position : Position} {f : Registry → TypeFault}
    {post : Unit → Typer → Prop} : Yields (Infer.require holds position f) s post fault ↔
      if holds s.typing.registry then post () s else fault (.type (f s.typing.registry)) := by
  simp only [Infer.require, yields_bind, yields_registry]
  split <;> rfl

@[simp] theorem yields_forM_cons {x : β} {xs : List β} {f : β → Infer PUnit} {post : PUnit → Typer → Prop} :
    Yields ((x :: xs).forM f) s post fault ↔
      Yields (f x) s (fun _ s' => Yields (xs.forM f) s' post fault) fault := yields_bind

theorem yields_forM_each {xs : List β} {f : β → Infer PUnit} {I : Typer → Prop} {R : Typer → Typer → Prop}
    {C : β → Typer → Prop} (hrefl : ∀ s, R s s) (htrans : ∀ s₁ s₂ s₃, R s₁ s₂ → R s₂ s₃ → R s₁ s₃)
    (hkeep : ∀ x s₁ s₂, C x s₁ → R s₁ s₂ → C x s₂)
    (h : ∀ x ∈ xs, ∀ s, I s → Yields (f x) s (fun _ s' => I s' ∧ R s s' ∧ C x s') fault) (hs : I s) :
    Yields (xs.forM f) s (fun _ s' => I s' ∧ R s s' ∧ ∀ x ∈ xs, C x s') fault := by
  induction xs generalizing s with
  | nil => exact ⟨hs, hrefl s, by simp⟩
  | cons x xs ih =>
    rw [yields_forM_cons]
    apply (h x List.mem_cons_self s hs).mono
    rintro _ s₁ ⟨hs₁, hr, hx⟩
    apply (ih (fun x hx => h x (List.mem_cons_of_mem _ hx)) hs₁).mono
    rintro _ s₂ ⟨hs₂, hr', hxs⟩
    exact ⟨hs₂, htrans _ _ _ hr hr', List.forall_mem_cons.mpr ⟨hkeep _ _ _ hx hr', hxs⟩⟩

theorem yields_forM_checks {xs : List β} {f : β → Infer PUnit} {C : β → Prop}
    (h : ∀ x ∈ xs, Yields (f x) s (fun _ s' => s' = s ∧ C x) fault) :
    Yields (xs.forM f) s (fun _ s' => s' = s ∧ ∀ x ∈ xs, C x) fault := by
  refine (yields_forM_each (I := (· = s)) (R := fun _ _ => True) (C := fun x _ => C x) (fun _ => trivial)
    (fun _ _ _ _ _ => trivial) (fun _ _ _ hx _ => hx) ?_ rfl).mono fun _ s' hs' => ⟨hs'.1, hs'.2.2⟩
  rintro x hx _ rfl
  exact (h x hx).mono fun _ s' hs' => ⟨hs'.1, trivial, hs'.2⟩

end MmixCompiler
