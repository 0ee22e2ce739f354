import MmixCompiler.Proofs.Ir.Flattening
import MmixCompiler.Proofs.Ir.Generating

/-! The code of a function does what its body does. Code that is made from an expression is evaluated to the same
value with the same calls and the same memory, if every name in it is found where the environment has it, and one
ends if and only if the other does. -/

namespace MmixCompiler

variable {Val Mem α β : Type}

/-- The state of a machine with the given temporaries. -/
def Situation.state (w : Situation Val Mem) (temps : Temp → Val) : Ir.State Val Mem := ⟨temps, w.mem, w.calls⟩

/-- What code does that does the same. -/
def Ending.outcome? (temps : Temp → Val) : Ending Val Mem α → Option (Ir.Outcome Val Mem α)
  | .done a w => some (.done a (w.state temps))
  | .spent w => some (.spent (w.state temps))
  | .stuck => none

namespace Evaluation

theorem bind_assoc {γ : Type} (x : Evaluation Val Mem α) (f : α → Situation Val Mem → Evaluation Val Mem β)
    (g : β → Situation Val Mem → Evaluation Val Mem γ) : (x.bind f).bind g = x.bind fun a w => (f a w).bind g := by
  rcases x with ⟨⟨a, w⟩ | ⟨w⟩ | _, uses⟩
  · dsimp only [bind]
    rcases f a w with ⟨⟨b, w'⟩ | ⟨w'⟩ | _, uses'⟩
    · simp
    · rfl
    · rfl
  · rfl
  · rfl

theorem bind_done (x : Evaluation Val Mem α) : (x.bind fun a w => done a w) = x := by
  rcases x with ⟨⟨a, w⟩ | ⟨w⟩ | _, uses⟩
  · simp [bind, done]
  · rfl
  · rfl

theorem located_false (m : Ir.Machine Val Mem) (x : Evaluation Val Mem Val) :
    located m false x = (located m true x).bind fun v w => done (m.load w.mem v) w := by
  rw [located, located, bind_assoc]
  rcases x with ⟨⟨a, w⟩ | ⟨w⟩ | _, uses⟩
  · simp [bind, done]
  · rfl
  · rfl

theorem value_false (x : Evaluation Val Mem Val) : value false x = x := rfl

theorem located_true (m : Ir.Machine Val Mem) (x : Evaluation Val Mem Val) : located m true x = x := bind_done x

/-- Code does the same as an evaluation, if the uses of names are right. -/
def Mirrors (right : NodeId × Mem → Prop) (temps : Temp → Val) (x : Evaluation Val Mem α)
    (o : Ir.Outcome Val Mem α) : Prop :=
  (∀ u ∈ x.uses, right u) → x.ending.outcome? temps = some o

section
variable {right : NodeId × Mem → Prop} {temps : Temp → Val}

theorem Mirrors.done (a : α) (w : Situation Val Mem) :
    Mirrors right temps (Evaluation.done a w) (.done a (w.state temps)) := fun _ => rfl

variable {x : Evaluation Val Mem α} {o : Ir.Outcome Val Mem α} {f : α → Situation Val Mem → Evaluation Val Mem β}
  {g : α → Ir.State Val Mem → Ir.Outcome Val Mem β}

/-- Code goes on after what does the same, and ends if that has ended. -/
theorem Mirrors.andThen {k : Ir.Outcome Val Mem α → Ir.Outcome Val Mem β} (h : Mirrors right temps x o)
    (hspent : ∀ σ, k (.spent σ) = .spent σ)
    (hf : ∀ a w, Mirrors right temps (f a w) (k (.done a (w.state temps)))) : Mirrors right temps (x.bind f) (k o) := by
  intro huses
  rcases x with ⟨⟨a, w⟩ | ⟨w⟩ | _, uses⟩
  · cases h fun u hu => huses u (List.mem_append_left _ hu)
    exact hf a w fun u hu => huses u (List.mem_append_right _ hu)
  · cases h huses
    exact congrArg some (hspent _).symm
  · cases h huses

theorem Mirrors.bind (h : Mirrors right temps x o)
    (hf : ∀ a w, Mirrors right temps (f a w) (g a (w.state temps))) : Mirrors right temps (x.bind f) (o.bind g) :=
  h.andThen (k := (·.bind g)) (fun _ => rfl) hf

end
end Evaluation

namespace Ir.Outcome

/-- What a block does after a piece of it. -/
def goOn (labels : List Label) (run : Option Label → State Val Mem → Outcome Val Mem Unit) (n : Nat)
    (o : Outcome Val Mem Unit) : Outcome Val Mem Unit :=
  match o with
  | .jump l σ => if l ∈ labels then resume labels run n (some l) σ else .jump l σ
  | o => o

theorem resume_succ (labels : List Label) (run : Option Label → State Val Mem → Outcome Val Mem Unit) (n : Nat)
    (start : Option Label) (σ : State Val Mem) :
    resume labels run (n + 1) start σ = goOn labels run n (run start σ) := rfl

theorem bind_assoc {γ : Type} (o : Outcome Val Mem α) (f : α → State Val Mem → Outcome Val Mem β)
    (g : β → State Val Mem → Outcome Val Mem γ) : (o.bind f).bind g = o.bind fun a σ => (f a σ).bind g := by
  cases o <;> rfl

end Ir.Outcome

namespace Evaluation

variable {right : NodeId × Mem → Prop} {temps : Temp → Val} {labels : List Label}
  {run : Option Label → Ir.State Val Mem → Ir.Outcome Val Mem Unit} {n : Nat}

open Ir.Outcome

theorem Mirrors.goOn {x : Evaluation Val Mem α} {o : Ir.Outcome Val Mem α}
    {f : α → Situation Val Mem → Evaluation Val Mem Unit} {g : α → Ir.State Val Mem → Ir.Outcome Val Mem Unit}
    (h : Mirrors right temps x o)
    (hf : ∀ a w, Mirrors right temps (f a w) (Ir.Outcome.goOn labels run n (g a (w.state temps)))) :
    Mirrors right temps (x.bind f) (Ir.Outcome.goOn labels run n (o.bind g)) :=
  h.andThen (k := fun o => Ir.Outcome.goOn labels run n (o.bind g)) (fun _ => rfl) hf

theorem Mirrors.jump {x : Evaluation Val Mem Unit} {l : Label} {σ : Ir.State Val Mem} (hl : l ∈ labels)
    (h : Mirrors right temps x (resume labels run n (some l) σ)) :
    Mirrors right temps x (Ir.Outcome.goOn labels run n (.jump l σ)) := by
  rw [Ir.Outcome.goOn, if_pos hl]
  exact h

variable {m : Ir.Machine Val Mem} {fuel : Nat} {c : Ir.Expr} {cs ds : List Ir.Stmt}
  {test : Situation Val Mem → Evaluation Val Mem Val} {body yes no : Situation Val Mem → Evaluation Val Mem Unit}

theorem Mirrors.cond {yesLabel noLabel endLabel : Label} (hlabels : [yesLabel, noLabel, endLabel].Nodup)
    (hfuel : 3 ≤ fuel)
    (htest : ∀ w, Mirrors right temps (test w) (c.eval m fuel (w.state temps)))
    (hyes : ∀ w, Mirrors right temps (yes w) ((Ir.Stmt.block cs).exec m fuel (w.state temps)))
    (hno : ∀ w, Mirrors right temps (no w) ((Ir.Stmt.block ds).exec m fuel (w.state temps)))
    (w : Situation Val Mem) :
    Mirrors right temps ((test w).bind fun x w => if m.holds x then yes w else no w)
      ((Ir.Stmt.block [.branch c yesLabel noLabel, .label yesLabel, .block cs, .jump endLabel,
        .label noLabel, .block ds, .label endLabel]).exec m fuel (w.state temps)) := by
  obtain ⟨hyn, hye, hne⟩ : yesLabel ≠ noLabel ∧ yesLabel ≠ endLabel ∧ noLabel ≠ endLabel := by
    simp only [List.nodup_cons, List.mem_cons, not_or, List.not_mem_nil] at hlabels
    exact ⟨hlabels.1.1, hlabels.1.2.1, hlabels.2.1.1⟩
  generalize hss : [Ir.Stmt.branch c yesLabel noLabel, .label yesLabel, .block cs, .jump endLabel, .label noLabel,
    .block ds, .label endLabel] = ss
  have hstart : ∀ σ, Ir.Stmt.execFrom m fuel none ss σ =
      (c.eval m fuel σ).bind fun x σ => .jump (if m.holds x then yesLabel else noLabel) σ := fun σ => by
    rw [← hss, Ir.Stmt.execFrom, Ir.Stmt.exec, Ir.Outcome.bind_assoc]
    rfl
  have hatYes : ∀ σ, Ir.Stmt.execFrom m fuel (some yesLabel) ss σ =
      ((Ir.Stmt.block cs).exec m fuel σ).bind fun _ σ => .jump endLabel σ := fun σ => by
    simp only [← hss, Ir.Stmt.execFrom, Ir.Stmt.label?, if_true, reduceCtorEq, if_false]
    rfl
  have hatNo : ∀ σ, Ir.Stmt.execFrom m fuel (some noLabel) ss σ =
      ((Ir.Stmt.block ds).exec m fuel σ).bind fun _ σ => .done () σ := fun σ => by
    simp only [← hss, Ir.Stmt.execFrom, Ir.Stmt.label?, if_true, reduceCtorEq, if_false, Option.some.injEq, hyn]
    rfl
  have hatEnd : ∀ σ, Ir.Stmt.execFrom m fuel (some endLabel) ss σ = .done () σ := fun σ => by
    simp only [← hss, Ir.Stmt.execFrom, Ir.Stmt.label?, if_true, reduceCtorEq, if_false, Option.some.injEq, hye, hne]
  have hlabelsOf : Ir.labelsOf ss = [yesLabel, noLabel, endLabel] := by rw [← hss]; rfl
  obtain ⟨k, rfl⟩ : ∃ k, fuel = k + 3 := ⟨fuel - 3, by omega⟩
  rw [Ir.Stmt.exec, hlabelsOf, resume_succ, hstart]
  refine (htest w).goOn fun x w => ?_
  split
  · refine .jump (by simp) ?_
    rw [resume_succ, hatYes, ← bind_done (yes w)]
    refine (hyes w).goOn fun _ w => .jump (by simp) ?_
    rw [resume_succ, hatEnd]
    exact .done () w
  · refine .jump (by simp) ?_
    rw [resume_succ, hatNo, ← bind_done (no w)]
    exact (hno w).goOn fun _ w => .done () w

/-- Code for a loop. A round takes two jumps. -/
theorem Mirrors.loop {testLabel bodyLabel endLabel : Label} (hlabels : [testLabel, bodyLabel, endLabel].Nodup)
    (htest : ∀ w, Mirrors right temps (test w) (c.eval m (2 * n) (w.state temps)))
    (hbody : ∀ w, Mirrors right temps (body w) ((Ir.Stmt.block cs).exec m (2 * n) (w.state temps)))
    (w : Situation Val Mem) :
    Mirrors right temps (iterate (fun w => (test w).bind fun x w =>
        if m.holds x then (body w).bind fun _ w => Evaluation.done true w else Evaluation.done false w) n w)
      ((Ir.Stmt.block [.label testLabel, .branch c bodyLabel endLabel, .label bodyLabel, .block cs, .jump testLabel,
        .label endLabel]).exec m (2 * n) (w.state temps)) := by
  obtain ⟨htb, hte, hbe⟩ : testLabel ≠ bodyLabel ∧ testLabel ≠ endLabel ∧ bodyLabel ≠ endLabel := by
    simp only [List.nodup_cons, List.mem_cons, not_or, List.not_mem_nil] at hlabels
    exact ⟨hlabels.1.1, hlabels.1.2.1, hlabels.2.1.1⟩
  generalize hss : [Ir.Stmt.label testLabel, .branch c bodyLabel endLabel, .label bodyLabel, .block cs, .jump testLabel,
    .label endLabel] = ss
  have hstart : ∀ start, start = none ∨ start = some testLabel → ∀ σ, Ir.Stmt.execFrom m (2 * n) start ss σ =
      (c.eval m (2 * n) σ).bind fun x σ => .jump (if m.holds x then bodyLabel else endLabel) σ := by
    have hbranch : ∀ σ, Ir.Stmt.execFrom m (2 * n) none [.branch c bodyLabel endLabel, .label bodyLabel, .block cs,
        .jump testLabel, .label endLabel] σ =
        (c.eval m (2 * n) σ).bind fun x σ => .jump (if m.holds x then bodyLabel else endLabel) σ := fun σ => by
      rw [Ir.Stmt.execFrom, Ir.Stmt.exec, Ir.Outcome.bind_assoc]
      rfl
    rintro start (rfl | rfl) σ
    · rw [← hss]
      exact hbranch σ
    · rw [← hss, Ir.Stmt.execFrom, Ir.Stmt.label?, if_pos rfl]
      exact hbranch σ
  have hatBody : ∀ σ, Ir.Stmt.execFrom m (2 * n) (some bodyLabel) ss σ =
      ((Ir.Stmt.block cs).exec m (2 * n) σ).bind fun _ σ => .jump testLabel σ := fun σ => by
    simp only [← hss, Ir.Stmt.execFrom, Ir.Stmt.label?, if_true, reduceCtorEq, if_false, Option.some.injEq, htb]
    rfl
  have hatEnd : ∀ σ, Ir.Stmt.execFrom m (2 * n) (some endLabel) ss σ = .done () σ := fun σ => by
    simp only [← hss, Ir.Stmt.execFrom, Ir.Stmt.label?, if_true, reduceCtorEq, if_false, Option.some.injEq, hte, hbe]
  have hlabelsOf : Ir.labelsOf ss = [testLabel, bodyLabel, endLabel] := by rw [← hss]; rfl
  rw [Ir.Stmt.exec, hlabelsOf]
  -- the number of rounds that are left, while `n` stays as it is in the code of the test and of the body
  suffices hrounds : ∀ k start, start = none ∨ start = some testLabel → ∀ w, Mirrors right temps
      (iterate (fun w => (test w).bind fun x w =>
        if m.holds x then (body w).bind fun _ w => Evaluation.done true w else Evaluation.done false w) k w)
      (resume [testLabel, bodyLabel, endLabel] (fun start σ => Ir.Stmt.execFrom m (2 * n) start ss σ) (2 * k) start
        (w.state temps)) from hrounds n none (.inl rfl) w
  intro k
  induction k with
  | zero => exact fun _ _ w _ => rfl
  | succ k ih =>
    intro start hs w
    rw [iterate, bind_assoc, Nat.mul_succ, resume_succ, hstart start hs]
    refine (htest w).goOn fun x w => ?_
    split
    · refine .jump (by simp) ?_
      rw [resume_succ, hatBody, bind_assoc]
      exact (hbody w).goOn fun _ w => .jump (by simp) (ih _ (.inr rfl) w)
    · refine .jump (by simp) ?_
      rw [resume_succ, hatEnd]
      exact .done () w

end Evaluation

section
variable (m : Ir.Machine Val Mem)

/-- Code with the same value in every state with the given temporaries and memory, and no effect. -/
def Ir.Expr.Fixed (c : Ir.Expr) (temps : Temp → Val) (mem : Mem) : Prop :=
  ∃ v, ∀ fuel calls, c.eval m fuel ⟨temps, mem, calls⟩ = .done v ⟨temps, mem, calls⟩

theorem Frame.fixed_link (f : Frame) (n : Nat) (temps : Temp → Val) (mem : Mem) : (f.link n).Fixed m temps mem := by
  induction n with
  | zero => exact ⟨temps f.fp, fun _ _ => rfl⟩
  | succ n ih =>
    obtain ⟨v, hv⟩ := ih
    refine ⟨m.load mem v, fun fuel calls => ?_⟩
    rw [Frame.link, Ir.Expr.eval, hv]
    rfl

theorem Access.fixed_address {x : Access} {f : Frame} {name : String} {position : Position} {c : Ir.Expr}
    (h : x.address f name position = .ok c) (temps : Temp → Val) (mem : Mem) : c.Fixed m temps mem := by
  obtain ⟨label, size, -, rfl⟩ | ⟨n, offset, rfl⟩ := Access.address_cases h
  · exact ⟨m.address label, fun _ _ => rfl⟩
  · obtain ⟨v, hv⟩ := f.fixed_link m n temps mem
    refine ⟨m.binary .add v (m.const offset), fun fuel calls => ?_⟩
    rw [Ir.Expr.eval, hv]
    rfl

theorem Frame.fixed_linkTo {f callee : Frame} {c : Ir.Expr} (h : f.linkTo callee = .ok c) (temps : Temp → Val)
    (mem : Mem) : c.Fixed m temps mem := by
  obtain rfl | ⟨n, rfl⟩ := Frame.linkTo_cases h
  · exact ⟨m.const 0, fun _ _ => rfl⟩
  · exact f.fixed_link m n temps mem

variable {m}

theorem Ir.Expr.Fixed.eval_eq {c : Ir.Expr} {temps : Temp → Val} {mem : Mem} (h : c.Fixed m temps mem) {v : Val}
    {σ : Ir.State Val Mem} (hv : c.Evaluates m ⟨temps, mem, []⟩ v σ) (fuel : Nat) (calls : List (Label × List Val)) :
    c.eval m fuel ⟨temps, mem, calls⟩ = .done v ⟨temps, mem, calls⟩ := by
  obtain ⟨u, hu⟩ := h
  obtain ⟨n, hn⟩ := hv
  cases (hu n []).symm.trans hn
  exact hu fuel calls

end

/-- Strings and functions are where the environment has them. -/
structure Environment.Fits (env : Environment Val) (m : Ir.Machine Val Mem) (l : Layout) (code : Code) : Prop where
  strings : ∀ (id : NodeId) label content, code.strings[id]? = some (label, content) → m.address label = env.string id
  functions : ∀ (id : NodeId) f, l.frames[id]? = some f → f.label = env.function id

section
variable (m : Ir.Machine Val Mem) (env : Environment Val) (a : Analysis) (l : Layout) (code : Code) (f : Frame)
  (temps : Temp → Val)

/-- In the memory of a use, the address that the code has for a variable is that of the variable, and the static
link that a call passes is that of the function. -/
def Environment.Right (u : NodeId × Mem) : Prop :=
  ∀ d, a.bindings[u.1]? = some d →
    (∀ c, code.addresses[u.1]? = some c → ∃ σ, c.Evaluates m ⟨temps, u.2, []⟩ (env.storage d.id) σ) ∧
    ∀ callee c, l.frames[d.id]? = some callee → f.linkTo callee = .ok c →
      ∃ σ, c.Evaluates m ⟨temps, u.2, []⟩ (env.link d.id) σ

open Evaluation

/-- Code does the same as what it is made from. -/
def Translation.Preserved (n : Nat) : Translation → Prop
  | .value e c => ∀ w, Mirrors (env.Right m a l code f temps) temps (e.evaluate m env a n false w)
      (c.eval m (2 * n) (w.state temps))
  | .address e c => ∀ w, Mirrors (env.Right m a l code f temps) temps (e.evaluate m env a n true w)
      (c.eval m (2 * n) (w.state temps))
  | .values es cs => ∀ w, Mirrors (env.Right m a l code f temps) temps (Expr.evaluateAll m env a n es w)
      (Ir.Expr.evalAll m (2 * n) cs (w.state temps))
  | .stmt s c => c.label? = none ∧ ∀ w, Mirrors (env.Right m a l code f temps) temps (s.execute m env a n w)
      (c.exec m (2 * n) (w.state temps))
  | .stmts ss cs => Ir.labelsOf cs = [] ∧ ∀ w, Mirrors (env.Right m a l code f temps) temps
      (Stmt.executeAll m env a n ss w) (Ir.Stmt.execFrom m (2 * n) none cs (w.state temps))
  | .bodies _ => True

end

theorem Ir.Stmt.exec_block {m : Ir.Machine Val Mem} {cs : List Ir.Stmt} (h : Ir.labelsOf cs = []) {n : Nat} (hn : 0 < n)
    (σ : Ir.State Val Mem) : (Ir.Stmt.block cs).exec m n σ = Ir.Stmt.execFrom m n none cs σ := by
  obtain ⟨n, rfl⟩ : ∃ k, n = k + 1 := ⟨n - 1, by omega⟩
  rw [Ir.Stmt.exec, Ir.Outcome.resume_succ, h]
  cases Ir.Stmt.execFrom m (n + 1) none cs σ <;> rfl

theorem Registry.fieldOffset_eq_offset {r : Registry} {t : TypeId} {b : Int} {fields : List (String × TypeId)}
    {name : String} {i : Nat} (hb : r.bytes? t = some b) (hfields : r.fields? t = some fields)
    (hi : fields.findIdx? (fun f => f.1 = name) = some i) : r.fieldOffset t i = r.offset fields name := by
  rw [fieldOffset_eq hb (fields?_eq_some.mp hfields), offset, List.takeWhile_eq_take_findIdx_not]
  have hfind : fields.findIdx (fun f => !decide (f.1 ≠ name)) = i := by
    have hpred : (fun f : String × TypeId => !decide (f.1 ≠ name)) = fun f => decide (f.1 = name) := by
      funext f
      by_cases h : f.1 = name <;> simp [h]
    rw [hpred]
    exact (List.findIdx?_eq_some_iff_findIdx_eq.mp hi).2
  rw [hfind]

section
variable {p : Program} {a : Analysis} {l : Layout} {code : Code} {bound : Nat} {f : Frame} {m : Ir.Machine Val Mem}
  {env : Environment Val} {n : Nat}

open Evaluation

theorem Coded.evaluate_false {e : Expr} {c : Ir.Expr} (h : Coded a l code bound f (.address e c))
    (w : Situation Val Mem) :
    e.evaluate m env a n false w = (e.evaluate m env a n true w).bind fun v w => done (m.load w.mem v) w := by
  cases h with
  | name hd =>
    rw [Expr.evaluate, Expr.evaluate, hd]
    exact located_false m _
  | deref => exact located_false m _
  | index _ _ hu ht =>
    rw [Expr.evaluate, Expr.evaluate, hu, Option.bind_some, ht]
    exact located_false m _
  | field _ ht hfields =>
    rw [Expr.evaluate, Expr.evaluate, ht, Option.bind_some, hfields]
    exact located_false m _

theorem Coded.preserved {t : Translation} (h : Coded a l code bound f t) (htypings : p.Typings a.typing)
    (henv : env.Fits m l code) (temps : Temp → Val) (hn : 2 ≤ n) : t.Preserved m env a l code f temps n := by
  have hbytes : ∀ t, a.registry.bytes t = a.registry.extent t := htypings.bytes_eq_extent
  induction h with
  | number h =>
    intro w
    rw [Expr.evaluate, h]
    exact .done _ w
  | string h =>
    intro w
    rw [Ir.Expr.eval, henv.strings _ _ _ h]
    exact .done _ w
  | load h ih =>
    intro w
    rw [h.evaluate_false]
    exact (ih w).bind fun v w => .done _ w
  | name hd hx hc hnoted =>
    intro w huses
    rw [Expr.evaluate, hd] at huses ⊢
    obtain ⟨σ, hσ⟩ := ((huses _ (List.mem_append_left _ List.mem_cons_self)) _ hd).1 _ hnoted.1
    exact congrArg some ((Access.fixed_address m hc temps w.mem).eval_eq hσ _ _).symm
  | deref h _ ih =>
    intro w
    rw [Expr.evaluate, located_true]
    exact ih w
  | index harray hindex hu ht _ iharray ihindex =>
    intro w
    rw [Expr.evaluate, hu, Option.bind_some, ht, given, located_true, Ir.Expr.eval, hbytes]
    refine (iharray w).bind fun base w => ?_
    rw [Ir.Expr.eval, Ir.Outcome.bind_assoc]
    exact (ihindex w).bind fun x w => .done _ w
  | field hrecord ht hfields hi _ ih =>
    intro w
    obtain ⟨b, hb⟩ := htypings.exists_bytes _
    have hoffset : a.registry.fieldOffset _ _ = a.registry.offset _ _ := Registry.fieldOffset_eq_offset hb hfields hi
    rw [Expr.evaluate, ht, Option.bind_some, hfields, given, located_true, Ir.Expr.eval, hoffset]
    exact (ih w).bind fun base w => .done _ w
  | call hd hcallee hlink hargs _ ih =>
    intro w
    rw [Expr.evaluate, hd, given, value_false, Ir.Expr.eval, Ir.Expr.evalAll, Ir.Outcome.bind_assoc]
    refine Mirrors.bind (fun huses => ?_) fun x w => ?_
    · obtain ⟨σ, hσ⟩ := ((huses _ List.mem_cons_self) _ hd).2 _ _ hcallee hlink
      exact congrArg some ((Frame.fixed_linkTo m hlink temps w.mem).eval_eq hσ _ _).symm
    · rw [Ir.Outcome.bind_assoc, henv.functions _ _ hcallee]
      exact (ih w).bind fun xs w => .done _ _
  | binary hlhs hrhs _ ihl ihr => exact fun w => (ihl w).bind fun x w => (ihr w).bind fun y w => .done _ w
  | plus h _ ih => exact ih
  | minus h _ ih => exact fun w => (ih w).bind fun x w => .done _ w
  | not h _ ih => exact fun w => (ih w).bind fun x w => .done _ w
  | addr h _ ih => exact ih
  | cast h ht _ ih =>
    intro w
    rw [Expr.evaluate, ht, given]
    split
    · exact (ih w).bind fun x w => .done _ w
    · exact (bind_done (Expr.evaluate m env a n false _ w)).symm ▸ ih w
  | new ht =>
    intro w _
    rw [Expr.evaluate, ht, hbytes]
    rfl
  | del h _ ih =>
    intro w
    rw [Expr.evaluate, value_false, Ir.Expr.eval, Ir.Expr.evalAll, Ir.Outcome.bind_assoc]
    change Mirrors _ _ _ (((Ir.Expr.evalAll m (2 * n) [_] _).bind _).bind _)
    rw [Ir.Expr.evalAll, Ir.Outcome.bind_assoc, Ir.Outcome.bind_assoc]
    exact (ih w).bind fun x w => .done _ _
  | block hdecls hstmts hresult _ _ ihstmts ihresult =>
    intro w
    rw [Ir.Expr.eval, Ir.Stmt.exec_block ihstmts.1 (by omega)]
    exact (ihstmts.2 w).bind fun _ w => ihresult w
  | noValues => exact fun w => .done _ w
  | values h hs ih ihs => exact fun w => (ih w).bind fun x w => (ihs w).bind fun xs w => .done _ w
  | eval h ih => exact ⟨rfl, fun w => (ih w).bind fun x w => .done _ w⟩
  | assign hdst hsrc ihd ihs => exact ⟨rfl, fun w => (ihd w).bind fun x w => (ihs w).bind fun y w => .done _ _⟩
  | cond htest hyes hno hlabels ihtest ihyes ihno =>
    refine ⟨rfl, .cond hlabels (by omega) ihtest (fun w => ?_) fun w => ?_⟩
    · rw [Ir.Stmt.exec_block ihyes.1 (by omega)]
      exact ihyes.2 w
    · rw [Ir.Stmt.exec_block ihno.1 (by omega)]
      exact ihno.2 w
  | loop htest hbody hlabels ihtest ihbody =>
    refine ⟨rfl, .loop hlabels ihtest fun w => ?_⟩
    rw [Ir.Stmt.exec_block ihbody.1 (by omega)]
    exact ihbody.2 w
  | noStmts => exact ⟨rfl, fun w => .done _ w⟩
  | stmts h hs ih ihs =>
    refine ⟨?_, fun w => (ih.2 w).bind fun _ w => ihs.2 w⟩
    rw [Ir.labelsOf, List.filterMap_cons_none ih.1]
    exact ihs.1
  | noBodies | noBody | body => trivial

end

section
variable {m : Ir.Machine Val Mem} {env : Environment Val} {a : Analysis} {temps : Temp → Val}
  {right : NodeId × Mem → Prop} {e : Expr} {c : Ir.Expr} {w : Situation Val Mem}
  (h : ∀ n, 2 ≤ n → Evaluation.Mirrors right temps (e.evaluate m env a n false w) (c.eval m (2 * n) (w.state temps)))
  (huses : ∀ n, ∀ u ∈ (e.evaluate m env a n false w).uses, right u)
include h huses

/-- Code that does the same with enough rounds and jumps has the same results. -/
theorem evaluates_iff_means (v : Val) (σ : Ir.State Val Mem) :
    c.Evaluates m (w.state temps) v σ ↔ ∃ w', e.Means m env a w v w' ∧ σ = w'.state temps := by
  constructor
  · rintro ⟨n, hn⟩
    have hmirrors := h (n + 2) (by omega) (huses (n + 2))
    rcases c.eval_extends m (show n ≤ 2 * (n + 2) by omega) (w.state temps) with ⟨τ, hspent⟩ | heq
    · cases hn.symm.trans hspent
    · rw [heq, hn] at hmirrors
      cases hending : (e.evaluate m env a (n + 2) false w).ending with
      | done u w' =>
        rw [hending] at hmirrors
        cases hmirrors
        exact ⟨w', ⟨n + 2, hending⟩, rfl⟩
      | spent | stuck =>
        rw [hending] at hmirrors
        cases hmirrors
  · rintro ⟨w', ⟨n, hn⟩, rfl⟩
    have hmirrors := h (n + 2) (by omega) (huses (n + 2))
    rcases e.evaluate_extends m env a (show n ≤ n + 2 by omega) false w with ⟨w₁, hspent⟩ | heq
    · cases hn.symm.trans hspent
    · rw [heq, hn] at hmirrors
      exact ⟨2 * (n + 2), (Option.some.inj hmirrors).symm⟩

theorem not_stuck (n : Nat) : (e.evaluate m env a n false w).ending ≠ .stuck := by
  intro hstuck
  have hmirrors := h (n + 2) (by omega) (huses (n + 2))
  rcases e.evaluate_extends m env a (show n ≤ n + 2 by omega) false w with ⟨w₁, hspent⟩ | heq
  · cases hstuck.symm.trans hspent
  · rw [heq, hstuck] at hmirrors
    cases hmirrors

end

/-- Making code keeps the meaning of a program. Code is made for the body of every function of a program that has
passed analysis and is laid out; with names found where the environment has them, it has the value of the body
with the same memory and the same calls, and it ends if and only if the body does. -/
theorem Program.code_preserves_meaning {src : String} {p : Program} {a : Analysis} {planner : Planner}
    (hparse : (Program.parse src).1 = .ok p) (hanalyze : p.analyze = .ok a)
    (hlayout : p.layout a {} = (.ok (), planner)) :
    ∃ g, p.code a planner.layout planner.supply = (.ok (), g) ∧
      ∀ mark name params result body, p.Has (.decl (.function mark name params result body)) →
        ∃ f c, planner.layout.frames[mark.id]? = some f ∧ g.code.bodies[mark.id]? = some c ∧
          ∀ (Val Mem : Type) (m : Ir.Machine Val Mem) (env : Environment Val) (temps : Temp → Val)
            (w : Situation Val Mem), env.Fits m planner.layout g.code →
            (∀ n, ∀ u ∈ (body.evaluate m env a n false w).uses, env.Right m a planner.layout g.code f temps u) →
            (∀ v σ, c.Evaluates m (w.state temps) v σ ↔ ∃ w', body.Means m env a w v w' ∧ σ = w'.state temps) ∧
            ∀ n, (body.evaluate m env a n false w).ending ≠ .stuck := by
  have hp := Program.formed_parse hparse
  have ha := hp.analyzed hanalyze
  have hl : p.LaidOut planner.layout planner.supply := (ha.meets_plan.of_gives hlayout).1
  obtain ⟨_, g, hg, -, hcoded⟩ := (ha.meets_code hl).exists_gives
  refine ⟨g, hg, fun mark name params result body hd => ?_⟩
  obtain ⟨_, s, hs, -⟩ := ha.typings.resolved
  obtain ⟨k, hk⟩ := hd
  have hcode : p.InCode (k, .decl (.function mark name params result body)) :=
    (inCode_or_inert hp hs hk).resolve_right fun hinert => hinert.elim
  obtain ⟨f, -⟩ := hl.frames k _ hcode rfl
  obtain ⟨-, f, c, hf, hc, -, -, hbody⟩ := (hcoded f).covered hp hcode
  refine ⟨f, c, hf, hc, fun Val Mem m env temps w henv huses => ?_⟩
  have hmirrors : ∀ n, 2 ≤ n → Evaluation.Mirrors (env.Right m a planner.layout g.code f temps) temps
      (body.evaluate m env a n false w) (c.eval m (2 * n) (w.state temps)) := fun n hn =>
    hbody.preserved ha.typings henv temps hn w
  exact ⟨evaluates_iff_means hmirrors huses, not_stuck hmirrors huses⟩

/-- Adds up what a function gives for the numbers up to its argument. -/
def summing : String :=
  "fun f(x: int): int; fun sum(n: int): int = \x7b i = 0; s = 0; while i < n do i = i + 1; s = s + f(i); end; : s " ++
    "where var i: int; var s: int; \x7d;"

/-- Variables in a frame at 1000, and functions at the top. -/
def frameEnvironment (l : Layout) : Environment Int where
  storage id := ((l.accesses[id]?).map fun
    | .relative offset _ _ => 1000 + offset
    | .absolute _ _ => 0).getD 0
  string _ := 0
  function id := ((l.frames[id]?).map Frame.label).getD (.fresh 0)
  link _ := 0

/-- Code for an address in that frame. -/
def Ir.Expr.isAt (c : Ir.Expr) (address : Int) : Bool :=
  match c with
  | .binop .add (.temp _) (.const offset) => address = 1000 + offset
  | _ => false

theorem Ir.Expr.evaluates_of_isAt {c : Ir.Expr} {address : Int} (h : c.isAt address) (mem : Int → Int) :
    ∃ σ, c.Evaluates Ir.countingMachine ⟨fun _ => 1000, mem, []⟩ address σ := by
  unfold Ir.Expr.isAt at h
  split at h
  · rw [of_decide_eq_true h]
    exact ⟨_, 0, rfl⟩
  · cases h

/-- The result of an evaluation that ends, and its calls. -/
def Evaluation.result? (x : Evaluation Val Mem α) : Option (α × List (Label × List Val)) :=
  match x.ending with
  | .done a w => some (a, w.calls)
  | _ => none

/-- The sum of the numbers up to 3. -/
theorem summing_evaluates : ∃ p a planner g mark c, (Program.parse summing).1 = .ok p ∧ p.analyze = .ok a ∧
    p.layout a {} = (.ok (), planner) ∧ p.code a planner.layout planner.supply = (.ok (), g) ∧
    g.code.bodies[Mark.id mark]? = some c ∧
    ∃ σ, c.Evaluates Ir.countingMachine ⟨fun _ => 1000, fun b => if b = 1008 then 3 else 0, []⟩ 6 σ ∧
      σ.calls = [(.named "f", [0, 1]), (.named "f", [0, 2]), (.named "f", [0, 3])] := by
  have h : ((Program.parse summing).1.toOption.bind fun p => p.analyze.toOption.bind fun a =>
      (p.layout a {}).1.toOption.bind fun _ => p.decls.getLast?.bind fun d => d.body?.bind fun body =>
        let l := (p.layout a {}).2.layout
        let code := (p.code a l (p.layout a {}).2.supply).2.code
        if code.strings.isEmpty && l.frames.toList.all (fun x => x.2.depth = 1) && code.addresses.toList.all (fun x =>
          (a.bindings[x.1]?).all fun (d : Decl) => x.2.isAt ((frameEnvironment l).storage d.id)) then
          (body.evaluate Ir.countingMachine (frameEnvironment l) a 4 false
            ⟨fun b => if b = 1008 then 3 else 0, []⟩).result?
        else none) =
      some (6, [(.named "f", [0, 1]), (.named "f", [0, 2]), (.named "f", [0, 3])]) := by
    unfold summing
    rw [← String.ofList_append, Program.parse_ofList]
    decide +kernel
  simp only [Option.bind_eq_some_iff, Option.ite_none_right_eq_some, Bool.and_eq_true] at h
  obtain ⟨p, hp, a, ha, _, hl, d, hd, body, hbody, ⟨⟨hstrings, hframes⟩, haddresses⟩, hresult⟩ := h
  rw [toOption_eq_some] at hp ha hl
  have hlayout : p.layout a {} = (.ok (), (p.layout a {}).2) := Prod.ext hl rfl
  obtain ⟨g, hg, hbodies⟩ := Program.code_preserves_meaning hp ha hlayout
  generalize (p.layout a {}).2 = planner at hlayout hg hbodies hstrings hframes haddresses hresult
  rw [hg] at hstrings haddresses
  cases d with
  | typed | proto => cases hbody
  | function mark name params result e =>
    cases hbody
    have hhas : p.Has (.decl (.function mark name params result body)) :=
      ⟨0, Program.mem_levels_decl (List.mem_of_getLast? hd)⟩
    obtain ⟨f, c, -, hc, hmeaning⟩ := hbodies _ _ _ _ _ hhas
    have hfits : (frameEnvironment planner.layout).Fits Ir.countingMachine planner.layout g.code := by
      refine ⟨fun id label content hs => ?_, fun id f hf => ?_⟩
      · rw [Std.TreeMap.getElem?_of_isEmpty hstrings] at hs
        cases hs
      · simp [frameEnvironment, hf]
    have hright : ∀ u : NodeId × (Int → Int),
        (frameEnvironment planner.layout).Right Ir.countingMachine a planner.layout
        g.code f (fun _ => 1000) u := by
      intro u d hd
      refine ⟨fun c hc => ?_, fun callee c hcallee hlink => ?_⟩
      · have hat := List.all_eq_true.mp haddresses _ (Std.TreeMap.mem_toList_iff_getElem?_eq_some.mpr hc)
        rw [hd] at hat
        exact Ir.Expr.evaluates_of_isAt hat u.2
      · have hdepth := List.all_eq_true.mp hframes _ (Std.TreeMap.mem_toList_iff_getElem?_eq_some.mpr hcallee)
        rw [Frame.linkTo, if_pos (of_decide_eq_true hdepth)] at hlink
        cases hlink
        exact ⟨_, 0, rfl⟩
    obtain ⟨hiff, -⟩ := hmeaning Int (Int → Int) Ir.countingMachine _ (fun _ => 1000)
      ⟨fun b => if b = 1008 then 3 else 0, []⟩ hfits fun _ u _ => hright u
    unfold Evaluation.result? at hresult
    split at hresult
    · next v w hw =>
      obtain ⟨rfl, hcalls⟩ := Prod.mk.inj (Option.some.inj hresult)
      exact ⟨p, a, planner, g, mark, c, hp, ha, hlayout, hg, hc, _, (hiff _ _).mpr ⟨w, ⟨4, hw⟩, rfl⟩, hcalls⟩
    · cases hresult

end MmixCompiler
