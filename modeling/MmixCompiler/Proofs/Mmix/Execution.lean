import MmixCompiler.Register.Liveness
import Mathlib.Tactic.Common

/-! Running instructions. What an operation does is left open: it maps the words that it reads and
memory to the words that it writes, memory, and which of its jumps it takes. -/

namespace MmixCompiler.Mmix

variable {Val Mem : Type}

/-- What an operation does. It goes on to the next instruction if it takes none of its jumps. -/
structure Effect (Val Mem : Type) where
  /-- The word for what it writes first, second and so on. -/
  results : Nat → Val
  mem : Mem
  choice : Option Nat := none

/-- The effect of an operation with a template and jumps on the words that it reads and memory. -/
abbrev Meaning (Val Mem : Type) := String → List Label → List Val → Mem → Effect Val Mem

/-- A place in the code, the words of temporaries, memory, and what has happened so far. -/
structure Config (Val Mem : Type) where
  index : Nat
  temps : Temp → Val
  mem : Mem
  /-- The choices of operations that may jump. -/
  choices : List (Option Nat) := []
  /-- The temporaries that have been written. -/
  written : List Temp := []

def Config.entry (temps : Temp → Val) (mem : Mem) : Config Val Mem := { index := 0, temps, mem }

/-- Gives words to temporaries, one after the other. -/
def writeAll (results : Nat → Val) : Nat → List Temp → (Temp → Val) → Temp → Val
  | _, [], temps => temps
  | k, t :: ts, temps => writeAll results (k + 1) ts fun u => if u = t then results k else temps u

/-- Where an operation leads that makes a choice. -/
def Oper.next (code : List Instr) (index : Nat) (o : Oper) : Option Nat → Option Nat
  | none => some (index + 1)
  | some k => o.jumps[k]?.bind (labelIndex? code)

/-- The effect of an operation where it is run. -/
def Oper.effect (m : Meaning Val Mem) (o : Oper) (c : Config Val Mem) : Effect Val Mem :=
  m o.template o.jumps (o.uses.map c.temps) c.mem

/-- What an operation leads to, given its effect and where it leads. -/
def Config.advance (c : Config Val Mem) (o : Oper) (e : Effect Val Mem) (index : Nat) : Config Val Mem :=
  { index, temps := writeAll e.results 0 o.defs c.temps, mem := e.mem,
    choices := if o.jumps = [] then c.choices else c.choices ++ [e.choice],
    written := c.written ++ o.defs }

/-- One step. There is none from the end of the code, nor to a label that does not exist. -/
def step (m : Meaning Val Mem) (code : List Instr) (c : Config Val Mem) : Option (Config Val Mem) :=
  match code[c.index]? with
  | none => none
  | some (.label _) => some { c with index := c.index + 1 }
  | some (.oper o) =>
    (o.next code c.index (o.effect m c).choice).map (c.advance o (o.effect m c))

def run (m : Meaning Val Mem) (code : List Instr) : Nat → Config Val Mem → Option (Config Val Mem)
  | 0, c => some c
  | n + 1, c => (step m code c).bind (run m code n)

/-- Steps lead from one configuration to another, and every operation on the way is run where `ok`
holds. -/
inductive Runs (m : Meaning Val Mem) (code : List Instr) (ok : Oper → Config Val Mem → Prop)
    (c : Config Val Mem) : Config Val Mem → Prop where
  | refl : Runs m code ok c c
  | snoc {c₁ c₂ : Config Val Mem} : Runs m code ok c c₁ →
      (∀ o, code[c₁.index]? = some (.oper o) → ok o c₁) → step m code c₁ = some c₂ →
      Runs m code ok c c₂

section
variable {results : Nat → Val} {ts : List Temp} {t : Temp} {temps : Temp → Val} {k : Nat}

theorem writeAll_of_notMem (h : t ∉ ts) : writeAll results k ts temps t = temps t := by
  induction ts generalizing k temps with
  | nil => rfl
  | cons u us ih =>
    rw [List.mem_cons, not_or] at h
    rw [writeAll, ih h.2, if_neg h.1]

/-- Writing to other places in their stead gives the same word to a place that no two share. -/
theorem writeAll_map {f : Temp → Nat} {places : Nat → Val} (hinj : ∀ u ∈ ts, f u = f t → u = t)
    (h : t ∈ ts ∨ places (f t) = temps t) :
    writeAll results k (ts.map f) places (f t) = writeAll results k ts temps t := by
  induction ts generalizing k temps places with
  | nil => exact h.resolve_left List.not_mem_nil
  | cons u us ih =>
    have hinj' := fun v hv => hinj v (List.mem_cons_of_mem u hv)
    rw [List.map_cons, writeAll, writeAll]
    apply ih hinj'
    by_cases hu : t = u
    · exact .inr (by simp [hu])
    · have hne : f t ≠ f u := fun heq => hu (hinj u List.mem_cons_self heq.symm).symm
      simp only [if_neg hu, if_neg hne]
      exact h.imp_left fun ht => (List.mem_cons.mp ht).resolve_left hu

end

section
variable {m : Meaning Val Mem} {code : List Instr} {c c' : Config Val Mem}

theorem step_label {l : Label} (h : code[c.index]? = some (.label l)) :
    step m code c = some { c with index := c.index + 1 } := by
  simp [step, h]

theorem step_oper {o : Oper} {index : Nat} (h : code[c.index]? = some (.oper o))
    (hnext : o.next code c.index (o.effect m c).choice = some index) :
    step m code c = some (c.advance o (o.effect m c) index) := by
  simp [step, h, hnext]

theorem step_cases (h : step m code c = some c') :
    (∃ l, code[c.index]? = some (.label l) ∧ c' = { c with index := c.index + 1 }) ∨
      ∃ o index, code[c.index]? = some (.oper o) ∧ o.next code c.index (o.effect m c).choice = some index ∧
          c' = c.advance o (o.effect m c) index := by
  unfold step at h
  split at h
  · cases h
  · rename_i l hi
    exact .inl ⟨l, hi, (Option.some.inj h).symm⟩
  · rename_i o hi
    obtain ⟨index, hnext, h⟩ := Option.map_eq_some_iff.mp h
    exact .inr ⟨o, index, hi, hnext, h.symm⟩

variable {ok ok' : Oper → Config Val Mem → Prop} {c₁ c₂ : Config Val Mem}

theorem Runs.single {o : Oper} (hcode : code[c.index]? = some (.oper o)) (hok : ok o c)
    (h : step m code c = some c') : Runs m code ok c c' := by
  refine .snoc .refl (fun o' ho' => ?_) h
  rw [hcode, Option.some.injEq, Instr.oper.injEq] at ho'
  exact ho' ▸ hok

theorem Runs.trans (h : Runs m code ok c c₁) (h' : Runs m code ok c₁ c₂) : Runs m code ok c c₂ := by
  induction h' with
  | refl => exact h
  | snoc _ hok hstep ih => exact .snoc ih hok hstep

theorem Runs.mono (h : Runs m code ok c c₁) (hok : ∀ o c, ok o c → ok' o c) : Runs m code ok' c c₁ := by
  induction h with
  | refl => exact .refl
  | snoc _ h hstep ih => exact .snoc ih (fun o ho => hok o _ (h o ho)) hstep

end

end MmixCompiler.Mmix
