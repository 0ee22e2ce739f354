import MmixCompiler.Ir.Generation
import MmixCompiler.Proofs.Frame.Planning
import MmixCompiler.Proofs.Ir.Structured

/-! The labels that generation draws. Every label is drawn once, and belongs to the code of one body or to
one string: trees that are made one after the other have different labels, and a body that is made within another
one takes its labels with it. -/

namespace MmixCompiler

/-- What keeps labels: the body of a function, or a string. -/
inductive Owner where
  | body (id : NodeId)
  | string (id : NodeId)

def Code.Holds (c : Code) : Owner → Label → Prop
  | .body id, x => ∃ body, c.bodies[id]? = some body ∧ x ∈ body.labels
  | .string id, x => ∃ content, c.strings[id]? = some (x, content)

def Label.Between (x : Label) (first last : Nat) : Prop := ∃ n, x = .fresh n ∧ first ≤ n ∧ n < last

theorem Label.Between.mono {x : Label} {first last first' last' : Nat} (h : x.Between first last)
    (hfirst : first' ≤ first) (hlast : last ≤ last') : x.Between first' last' := by
  obtain ⟨n, rfl, hle, hlt⟩ := h
  exact ⟨n, rfl, Nat.le_trans hfirst hle, Nat.lt_of_lt_of_le hlt hlast⟩

theorem Label.Between.false_of_le {x : Label} {a b c d : Nat} (h : x.Between a b) (h' : x.Between c d) (hle : b ≤ c) :
    False := by
  obtain ⟨n, rfl, -, hlt⟩ := h
  obtain ⟨m, heq, hle', -⟩ := h'
  cases heq
  omega

def Generator.withLabel (g : Generator) : Generator :=
  { g with supply := { g.supply with labels := g.supply.labels + 1 } }

/-- Kept labels have been drawn, and each has one owner. -/
structure Generator.Tidy (g : Generator) : Prop where
  drawn : ∀ o x, g.code.Holds o x → x.Between 0 g.supply.labels
  apart : ∀ o o' x, g.code.Holds o x → g.code.Holds o' x → o = o'

/-- Generation has drawn the labels `ls`, which nothing keeps. Others that it drew are kept. -/
structure Generator.Draws (ls : List Label) (g g' : Generator) : Prop where
  labels : g.supply.labels ≤ g'.supply.labels
  fresh : ∀ x ∈ ls, x.Between g.supply.labels g'.supply.labels
  kept : ∀ o x, g'.code.Holds o x → g.code.Holds o x ∨ x.Between g.supply.labels g'.supply.labels
  free : ∀ x ∈ ls, ∀ o, ¬ g'.code.Holds o x
  tidy : g'.Tidy

namespace Generator.Draws

variable {ls ks : List Label} {g g₁ g' : Generator}

theorem idle (h : g.Tidy) : g.Draws [] g := ⟨Nat.le_refl _, by simp, fun _ _ => .inl, by simp, h⟩

theorem subset (h : Draws ls g g') (hks : ks ⊆ ls) : Draws ks g g' :=
  ⟨h.labels, fun x hx => h.fresh x (hks hx), h.kept, fun x hx => h.free x (hks hx), h.tidy⟩

theorem append (h : Draws ls g g₁) (h' : Draws ks g₁ g') : Draws (ls ++ ks) g g' where
  labels := Nat.le_trans h.labels h'.labels
  fresh := by
    intro x hx
    rcases List.mem_append.mp hx with hx | hx
    · exact (h.fresh x hx).mono (Nat.le_refl _) h'.labels
    · exact (h'.fresh x hx).mono h.labels (Nat.le_refl _)
  kept := by
    intro o x hx
    rcases h'.kept o x hx with hx | hx
    · exact (h.kept o x hx).imp_right fun hx => hx.mono (Nat.le_refl _) h'.labels
    · exact .inr (hx.mono h.labels (Nat.le_refl _))
  free := by
    intro x hx o hholds
    rcases List.mem_append.mp hx with hx | hx
    · rcases h'.kept o x hholds with hholds | hbetween
      · exact h.free x hx o hholds
      · exact (h.fresh x hx).false_of_le hbetween (Nat.le_refl _)
    · exact h'.free x hx o hholds
  tidy := h'.tidy

theorem same (h : Draws ls g g₁) (hsupply : g'.supply = g₁.supply) (hbodies : g'.code.bodies = g₁.code.bodies)
    (hstrings : g'.code.strings = g₁.code.strings) : Draws ls g g' := by
  have hholds : ∀ o x, g'.code.Holds o x ↔ g₁.code.Holds o x := by
    intro o x
    cases o <;> simp only [Code.Holds, hbodies, hstrings]
  refine ⟨hsupply ▸ h.labels, hsupply ▸ h.fresh, fun o x hx => ?_, fun x hx o ho => ?_, fun o x hx => ?_,
    fun o o' x hx hx' => ?_⟩
  · rw [hsupply]
    exact h.kept o x ((hholds o x).mp hx)
  · exact h.free x hx o ((hholds o x).mp ho)
  · rw [hsupply]
    exact h.tidy.drawn o x ((hholds o x).mp hx)
  · exact h.tidy.apart o o' x ((hholds o x).mp hx) ((hholds o' x).mp hx')

/-- Drawn labels get an owner, which keeps nothing else from then on. -/
theorem keep (h : Draws ls g g₁) {o : Owner} (hsupply : g'.supply = g₁.supply)
    (ho : ∀ x, g'.code.Holds o x → x ∈ ls) (hothers : ∀ o' x, o' ≠ o → g'.code.Holds o' x → g₁.code.Holds o' x) :
    Draws [] g g' := by
  have hcases : ∀ o' x, g'.code.Holds o' x → o' = o ∧ x ∈ ls ∨ o' ≠ o ∧ g₁.code.Holds o' x := by
    intro o' x hx
    by_cases heq : o' = o
    · exact .inl ⟨heq, ho x (heq ▸ hx)⟩
    · exact .inr ⟨heq, hothers o' x heq hx⟩
  refine ⟨hsupply ▸ h.labels, by simp, fun o' x hx => ?_, by simp, fun o' x hx => ?_, fun o₁ o₂ x hx₁ hx₂ => ?_⟩
  · rw [hsupply]
    rcases hcases o' x hx with ⟨-, hx⟩ | ⟨-, hx⟩
    · exact .inr (h.fresh x hx)
    · exact h.kept o' x hx
  · rw [hsupply]
    rcases hcases o' x hx with ⟨-, hx⟩ | ⟨-, hx⟩
    · exact (h.fresh x hx).mono (Nat.zero_le _) (Nat.le_refl _)
    · exact h.tidy.drawn o' x hx
  · rcases hcases o₁ x hx₁ with ⟨rfl, hmem⟩ | ⟨-, hheld⟩
    · rcases hcases o₂ x hx₂ with ⟨rfl, -⟩ | ⟨-, hheld⟩
      · rfl
      · exact absurd hheld (h.free x hmem o₂)
    · rcases hcases o₂ x hx₂ with ⟨rfl, hmem⟩ | ⟨-, hheld'⟩
      · exact absurd hheld (h.free x hmem o₁)
      · exact h.tidy.apart o₁ o₂ x hheld hheld'

theorem withLabel (h : g.Tidy) : g.Draws [.fresh g.supply.labels] g.withLabel := by
  have hdrawn : ∀ o x, g.code.Holds o x → x.Between 0 (g.supply.labels + 1) := fun o x hx =>
    (h.drawn o x hx).mono (Nat.le_refl _) (Nat.le_succ _)
  refine ⟨Nat.le_succ _, ?_, fun _ _ => .inl, ?_, hdrawn, h.apart⟩
  · intro x hx
    exact ⟨_, List.mem_singleton.mp hx, Nat.le_refl _, Nat.lt_succ_self _⟩
  · intro x hx o ho
    obtain rfl := List.mem_singleton.mp hx
    exact (h.drawn o _ ho).false_of_le ⟨_, rfl, Nat.le_refl _, Nat.lt_succ_self _⟩ (Nat.le_refl _)

end Generator.Draws

theorem Generator.tidy_start (s : Supply) : Generator.Tidy { supply := s } where
  drawn := by rintro (id | id) x hx <;> simp [Code.Holds] at hx
  apart := by rintro (id | id) o x hx <;> simp [Code.Holds] at hx

end MmixCompiler
