import Mathlib.Algebra.Ring.Int.Defs
import MmixCompiler.Proofs.Ir.Structured

/-! Flattening preserves meaning. The code of a tree, standing anywhere in a list of canonical code
with distinct labels, follows the evaluation of the tree: it makes the same calls, changes memory in
the same way, and writes only temporaries that it took for itself. Where the evaluation spends its
jumps, the code has made at least as many steps, so neither side ends without the other. -/

namespace MmixCompiler.Ir

open Fresh List

variable {Val Mem α β : Type}

/-- Two states that agree but for temporaries from a number on. -/
structure Agree (bound : Nat) (σ τ : State Val Mem) : Prop where
  mem : τ.mem = σ.mem
  calls : τ.calls = σ.calls
  temps : ∀ t < bound, τ.temps t = σ.temps t

def Keeps (bound : Nat) (τ τ' : State Val Mem) : Prop := ∀ t < bound, τ'.temps t = τ.temps t

theorem Keeps.trans {k l : Nat} {τ τ₁ τ₂ : State Val Mem} (hkl : k ≤ l) (h : Keeps k τ τ₁)
    (h' : Keeps l τ₁ τ₂) : Keeps k τ τ₂ := fun t ht => (h' t (by omega)).trans (h t ht)

theorem Agree.setTemp {bound t : Nat} {σ τ : State Val Mem} (h : Agree bound σ τ) (ht : bound ≤ t)
    (v : Val) : Agree bound σ (τ.setTemp t v) :=
  ⟨h.mem, h.calls, fun u hu => by simpa [State.setTemp, show u ≠ t by omega] using h.temps u hu⟩

theorem Agree.setMem {bound : Nat} {σ τ : State Val Mem} (h : Agree bound σ τ) (mem : Mem) :
    Agree bound (σ.setMem mem) (τ.setMem mem) := ⟨rfl, h.calls, h.temps⟩

section
variable (m : Machine Val Mem) (code : List Stmt) (bound : Nat)

/-- A run of the code from a place follows an evaluation. A result comes with what `Q` says of it and
of the place reached; a jump leads behind a label of `targets`; and if jumps are spent, at least
`low` steps have been made. Temporaries below `keep` are not written. -/
def Follows (low keep : Nat) (targets : List Label) (c : List Stmt × State Val Mem)
    (o : Outcome Val Mem α) (Q : α → State Val Mem → List Stmt × State Val Mem → Prop) : Prop :=
  match o with
  | .done a σ => ∃ n c', Steps m code n c c' ∧ Keeps keep c.2 c'.2 ∧ Q a σ c'
  | .jump l σ => l ∈ targets ∧ ∃ n r τ, codeAfter l code = some r ∧
      Steps m code (n + 1) c (r, τ) ∧ Keeps keep c.2 τ ∧ Agree bound σ τ
  | .spent σ => ∃ n c', low ≤ n ∧ Steps m code n c c' ∧ Agree bound σ c'.2

end

section
variable {m : Machine Val Mem} {code : List Stmt} {bound low keep keep' : Nat}
variable {targets targets' : List Label} {c c' : List Stmt × State Val Mem}

theorem Follows.done {a : α} {σ : State Val Mem}
    {Q : α → State Val Mem → List Stmt × State Val Mem → Prop} (h : Q a σ c) :
    Follows m code bound low keep targets c (.done a σ) Q :=
  ⟨0, c, .refl c, fun _ _ => rfl, h⟩

theorem Follows.after {o : Outcome Val Mem α}
    {Q : α → State Val Mem → List Stmt × State Val Mem → Prop} {n low' : Nat} (hkeep : keep ≤ keep')
    (hs : Steps m code n c c') (hk : Keeps keep c.2 c'.2) (hlow : low' ≤ n + low)
    (h : Follows m code bound low keep' targets c' o Q) :
    Follows m code bound low' keep targets c o Q := by
  cases o with
  | done a σ =>
    obtain ⟨k, c₂, hs', hk', hq⟩ := h
    exact ⟨n + k, c₂, hs.trans hs', hk.trans hkeep hk', hq⟩
  | jump l σ =>
    obtain ⟨hl, k, r, τ, hr, hs', hk', ha⟩ := h
    exact ⟨hl, n + k, r, τ, hr, hs.trans hs', hk.trans hkeep hk', ha⟩
  | spent σ =>
    obtain ⟨k, c₂, hlk, hs', ha⟩ := h
    exact ⟨n + k, c₂, by omega, hs.trans hs', ha⟩

theorem Follows.bind {o : Outcome Val Mem α} {f : α → State Val Mem → Outcome Val Mem β}
    {Q : α → State Val Mem → List Stmt × State Val Mem → Prop}
    {R : β → State Val Mem → List Stmt × State Val Mem → Prop} (hkeep : keep ≤ keep')
    (htargets : targets ⊆ targets') (h : Follows m code bound low keep targets c o Q)
    (hf : ∀ a σ c', Keeps keep c.2 c'.2 → Q a σ c' → Follows m code bound low keep' targets' c' (f a σ) R) :
    Follows m code bound low keep targets' c (o.bind f) R := by
  cases o with
  | done a σ =>
    obtain ⟨n, c', hs, hk, hq⟩ := h
    exact (hf a σ c' hk hq).after hkeep hs hk (Nat.le_add_left ..)
  | jump l σ => exact ⟨htargets h.1, h.2⟩
  | spent σ => exact h

theorem Follows.mono {o : Outcome Val Mem α} {Q R : α → State Val Mem → List Stmt × State Val Mem → Prop} {low' : Nat}
    (hkeep : keep ≤ keep') (hlow : low' ≤ low) (h : Follows m code bound low keep' targets c o Q)
    (hQ : ∀ a σ c', Keeps keep' c.2 c'.2 → Q a σ c' → R a σ c') :
    Follows m code bound low' keep targets c o R := by
  cases o with
  | done a σ =>
    obtain ⟨n, c', hs, hk, hq⟩ := h
    exact ⟨n, c', hs, fun t ht => hk t (by omega), hQ a σ c' hk hq⟩
  | jump l σ =>
    obtain ⟨hl, n, r, τ, hr, hs, hk, ha⟩ := h
    exact ⟨hl, n, r, τ, hr, hs, fun t ht => hk t (by omega), ha⟩
  | spent σ =>
    obtain ⟨n, c', hn, hs, ha⟩ := h
    exact ⟨n, c', by omega, hs, ha⟩

/-- A block that is run from several places is followed if each of its runs is. The induction is on
the jumps left; each of them takes a step of the code. -/
theorem Follows.resume {labels : List Label} {fuel : Nat} {run : Option Label → State Val Mem → Outcome Val Mem Unit}
    {Q : Unit → State Val Mem → List Stmt × State Val Mem → Prop}
    (place : Option Label → List Stmt → Prop)
    (hplace : ∀ l ∈ labels, ∀ r, codeAfter l code = some r → place (some l) r)
    (hrun : ∀ start r, place start r → ∀ σ τ, Agree bound σ τ →
      Follows m code bound fuel keep labels (r, τ) (run start σ) Q) :
    ∀ k ≤ fuel, ∀ start r, place start r → ∀ σ τ, Agree bound σ τ →
      Follows m code bound k keep targets (r, τ) (Outcome.resume labels run k start σ) Q := by
  intro k
  induction k with
  | zero => exact fun _ start r _ σ τ ha => ⟨0, (r, τ), Nat.le_refl _, .refl _, ha⟩
  | succ k ih =>
    intro hk start r hr σ τ ha
    have h := hrun start r hr σ τ ha
    rw [Outcome.resume]
    cases ho : run start σ with
    | done a σ' => rw [ho] at h; exact h
    | spent σ' =>
      rw [ho] at h
      obtain ⟨n, c', hn, hs, ha'⟩ := h
      exact ⟨n, c', by omega, hs, ha'⟩
    | jump l σ' =>
      rw [ho] at h
      obtain ⟨hl, n, r', τ', hr', hs, hkeep, ha'⟩ := h
      simp only [hl, if_true]
      exact (ih (by omega) (some l) r' (hplace l hl r' hr') σ' τ' ha').after (Nat.le_refl _) hs hkeep
        (by omega)

end

/-! ### Places of labels -/

theorem mem_labelsOf_cons {l : Label} {s : Stmt} {ss : List Stmt} :
    l ∈ labelsOf (s :: ss) ↔ s.label? = some l ∨ l ∈ labelsOf ss := by
  simp [labelsOf, mem_filterMap]

theorem codeAfter_of_nodup {l : Label} {pre rest : List Stmt} (h : (labelsOf (pre ++ .label l :: rest)).Nodup) :
    codeAfter l (pre ++ .label l :: rest) = some rest := by
  induction pre with
  | nil => simp [codeAfter, Stmt.label?]
  | cons s pre ih =>
    have hs : s.label? ≠ some l := by
      intro hs
      rw [cons_append, labelsOf, filterMap_cons_some hs, nodup_cons] at h
      exact h.1 (mem_filterMap.mpr ⟨.label l, by simp, rfl⟩)
    simp only [cons_append, codeAfter, hs, if_false]
    refine ih (h.sublist ?_)
    exact List.Sublist.filterMap _ (sublist_cons_self ..)

theorem exists_codeAfter {l : Label} {code : List Stmt} (h : l ∈ labelsOf code) : ∃ r, codeAfter l code = some r := by
  induction code with
  | nil => simp [labelsOf] at h
  | cons s ss ih =>
    by_cases hs : s.label? = some l
    · exact ⟨ss, by simp [codeAfter, hs]⟩
    · obtain ⟨r, hr⟩ := ih ((mem_labelsOf_cons.mp h).resolve_left hs)
      exact ⟨r, by simp [codeAfter, hs, hr]⟩

/-! ### The code of a tree follows its evaluation -/

section
variable (m : Machine Val Mem) (code : List Stmt) (bound fuel : Nat)

/-- Code that, wherever it stands, follows an evaluation to its own end, and what it leaves there. -/
def Simulates (keep : Nat) (targets : List Label) (c : List Stmt) (run : State Val Mem → Outcome Val Mem α)
    (Q : α → State Val Mem → State Val Mem → Prop) : Prop :=
  ∀ ⦃pre rest : List Stmt⦄, code = pre ++ (c ++ rest) → ∀ ⦃σ τ : State Val Mem⦄, Agree bound σ τ →
    Follows m code bound fuel keep targets (c ++ rest, τ) (run σ) fun a σ' c' => c'.1 = rest ∧ Q a σ' c'.2

/-- The last operation of a value is still to be made. -/
def Pending (f : Expr) (v : Val) (σ τ : State Val Mem) : Prop :=
  ∃ τ', f.operate m τ = some (v, τ') ∧ τ'.temps = τ.temps ∧ Agree bound σ τ'

/-- Where the run of a block begins: here, or behind one of its labels. -/
def Starts (labels : List Label) (here : List Stmt) : Option Label → List Stmt → Prop
  | none, r => r = here
  | some l, r => l ∈ labels ∧ codeAfter l code = some r

/-- What the code of a part does. It leaves values but for their last operation and operands in temporaries
below `next`; statements are followed from wherever a block begins with them. -/
def Part.Simulated (keep : Nat) (targets : List Label) (c : List Stmt) (r : List Expr) (next : Nat) : Part → Prop
  | .value e => ∀ f, r = [f] → Simulates m code bound fuel keep [] c (e.eval m fuel) (Pending m bound f)
  | .operand e => ∀ t, r = [.temp t] → Simulates m code bound fuel keep [] c (e.eval m fuel) fun v σ τ =>
      Agree bound σ τ ∧ τ.temps t = v ∧ t < next
  | .operands es => ∀ ts, r = List.map Expr.temp ts →
      Simulates m code bound fuel keep [] c (Expr.evalAll m fuel es) fun vs σ τ =>
        Agree bound σ τ ∧ ts.map τ.temps = vs
  | .stmt st => Simulates m code bound fuel keep targets c (st.exec m fuel) fun _ => Agree bound
  | .stmts ss => ∀ start pre rest r, code = pre ++ (c ++ rest) → Starts code (labelsOf ss) (c ++ rest) start r →
      ∀ σ τ, Agree bound σ τ → Follows m code bound fuel keep targets (r, τ) (Stmt.execFrom m fuel start ss σ)
        fun _ σ' c' => c'.1 = rest ∧ Agree bound σ' c'.2

end

section
variable {m : Machine Val Mem} {code : List Stmt} {bound fuel : Nat}

theorem operate_call (m : Machine Val Mem) (σ : State Val Mem) (l : Label) (ts : List Temp) :
    (Expr.call l (ts.map .temp)).operate m σ = some (m.invoke l (ts.map σ.temps) σ) := by
  have : (ts.map Expr.temp).mapM Expr.temp? = some ts := by
    induction ts with
    | nil => rfl
    | cons t ts ih => simp [ih, Expr.temp?]
  simp [Expr.operate, this]

theorem Agree.invoke {σ τ : State Val Mem} (h : Agree bound σ τ) (m : Machine Val Mem) (l : Label)
    (xs : List Val) : (m.invoke l xs τ).1 = (m.invoke l xs σ).1 ∧
      Agree bound (m.invoke l xs σ).2 (m.invoke l xs τ).2 := by
  refine ⟨by simp [Machine.invoke, h.mem], ?_, ?_, h.temps⟩
  · simp [Machine.invoke, h.mem]
  · simp [Machine.invoke, h.calls]

theorem follows_move {low keep : Nat} {targets : List Label} {f : Expr} {t : Temp} {v : Val}
    {rest : List Stmt} {σ τ τ' : State Val Mem}
    {a : α} {Q : α → State Val Mem → List Stmt × State Val Mem → Prop}
    (hkeep : keep ≤ t) (hf : f.operate m τ = some (v, τ')) (hτ : τ'.temps = τ.temps)
    (hQ : Q a σ (rest, τ'.setTemp t v)) :
    Follows m code bound low keep targets (.move (.temp t) f :: rest, τ) (.done a σ) Q := by
  refine ⟨1, _, .single (by simp [step, hf]), fun u hu => ?_, hQ⟩
  have hne : u ≠ t := Nat.ne_of_lt (Nat.lt_of_lt_of_le hu hkeep)
  simp [State.setTemp, hne, hτ]

namespace Simulates

variable {keep keep' : Nat} {targets : List Label} {c d : List Stmt} {run : State Val Mem → Outcome Val Mem α}
variable {f : α → State Val Mem → Outcome Val Mem β} {Q : α → State Val Mem → State Val Mem → Prop}
variable {R : β → State Val Mem → State Val Mem → Prop}

theorem nil (h : ∀ σ τ, Agree bound σ τ → ∃ a, run σ = .done a σ ∧ Q a σ τ) :
    Simulates m code bound fuel keep targets [] run Q := by
  intro pre rest _ σ τ ha
  obtain ⟨a, hrun, hq⟩ := h σ τ ha
  rw [hrun]
  exact .done ⟨rfl, hq⟩

theorem bind (h : Simulates m code bound fuel keep [] c run Q) (hkeep : keep ≤ keep')
    (hf : ∀ pre rest, code = pre ++ (d ++ rest) → ∀ a σ τ, Q a σ τ →
      Follows m code bound fuel keep' targets (d ++ rest, τ) (f a σ) fun b σ' c' => c'.1 = rest ∧ R b σ' c'.2) :
    Simulates m code bound fuel keep targets (c ++ d) (fun σ => (run σ).bind f) R := by
  intro pre rest hcode σ τ ha
  rw [append_assoc] at hcode ⊢
  refine Follows.bind hkeep (nil_subset _) (h hcode ha) ?_
  rintro a σ₁ ⟨r, τ₁⟩ - ⟨rfl, hq⟩
  exact hf (pre ++ c) rest (by rw [hcode, append_assoc]) a σ₁ τ₁ hq

theorem map (h : Simulates m code bound fuel keep [] c run Q)
    (hf : ∀ a σ τ, Q a σ τ → ∃ b σ', f a σ = .done b σ' ∧ R b σ' τ) :
    Simulates m code bound fuel keep targets c (fun σ => (run σ).bind f) R := by
  rw [← append_nil c]
  refine h.bind (Nat.le_refl _) fun pre rest _ a σ τ hq => ?_
  obtain ⟨b, σ', hdone, hr⟩ := hf a σ τ hq
  rw [hdone]
  exact .done ⟨rfl, hr⟩

/-- The last operation of a value is made by a move into a fresh temporary. -/
theorem move {run : State Val Mem → Outcome Val Mem Val} {run' : State Val Mem → Outcome Val Mem β} {g : Expr}
    {t : Temp} (h : Simulates m code bound fuel keep [] c run (Pending m bound g)) (hkeep : keep ≤ t)
    (hbound : bound ≤ t) (p : Val → β) (hrun : ∀ σ, run' σ = (run σ).bind fun v σ => .done (p v) σ)
    (hR : ∀ v σ τ, Agree bound σ τ → τ.temps t = v → R (p v) σ τ) :
    Simulates m code bound fuel keep targets (c ++ [.move (.temp t) g]) run' R := by
  rw [funext hrun]
  refine h.bind (Nat.le_refl _) fun pre rest _ v σ τ ⟨τ', hg, hτ, ha⟩ => ?_
  exact follows_move hkeep hg hτ ⟨rfl, hR v _ _ (ha.setTemp hbound v) (by simp [State.setTemp])⟩

end Simulates

/-- The code of a structured tree over old temporaries follows its evaluation. The induction is on how the
code is made; every case puts the runs of its parts one after another. -/
theorem Flattens.simulated {x : Part} {s s' : Supply} {c : List Stmt} {r : List Expr} (h : Flattens x s c r s')
    (hnodup : (labelsOf code).Nodup) {targets : List Label} (hx : x.Structured targets)
    (htargets : targets ⊆ labelsOf code) (hb : ∀ t ∈ x.temps, t < bound) (hbound : bound ≤ s.temps) :
    x.Simulated m code bound fuel s.temps targets c r s'.temps := by
  have hnil : [] ⊆ labelsOf code := nil_subset _
  induction h generalizing targets with
  | const | name =>
    rintro _ ⟨⟩
    exact .nil fun σ τ ha => ⟨_, rfl, τ, rfl, rfl, ha⟩
  | temp t s =>
    rintro _ ⟨⟩
    have ht : t < bound := hb t mem_cons_self
    exact .nil fun σ τ ha => ⟨_, rfl, τ, by simp [Expr.operate, ha.temps t ht], rfl, ha⟩
  | held t s =>
    rintro _ ⟨⟩
    have ht : t < bound := hb t mem_cons_self
    exact .nil fun σ τ ha => ⟨_, rfl, ha, ha.temps t ht, Nat.lt_of_lt_of_le ht hbound⟩
  | mem _ ih | unop _ ih =>
    rintro _ ⟨⟩
    refine (ih hx htargets hb hbound _ rfl).map ?_
    rintro _ σ τ ⟨ha, rfl, -⟩
    exact ⟨_, _, rfl, τ, by simp [Expr.operate, ha.mem], rfl, ha⟩
  | @binop _ _ _ _ _ t _ _ u _ hl _ ihl ihr =>
    rintro _ ⟨⟩
    obtain ⟨hbl, hbr⟩ := forall_mem_append.mp hb
    refine (ihl hx.1 hnil hbl hbound t rfl).bind hl.laid.temps ?_
    rintro pre rest hcode _ σ τ ⟨ha, rfl, ht⟩
    refine Follows.bind (Nat.le_refl _) (List.Subset.refl _)
      (ihr hx.2 hnil hbr (Nat.le_trans hbound hl.laid.temps) u rfl hcode ha) ?_
    -- the left operand is below the supply of the right one, which therefore keeps it
    rintro _ σ₂ c₂ hk ⟨hrest, ha₂, rfl, -⟩
    exact .done ⟨hrest, c₂.2, by simp [Expr.operate, hk t ht], rfl, ha₂⟩
  | @call l _ _ _ _ ts _ ih =>
    rintro _ ⟨⟩
    refine (ih hx htargets hb hbound ts rfl).map ?_
    rintro _ σ τ ⟨ha, rfl⟩
    obtain ⟨hv, ha'⟩ := ha.invoke m l (ts.map τ.temps)
    exact ⟨_, _, rfl, (m.invoke l (ts.map τ.temps) τ).2, by rw [operate_call, ← hv], rfl, ha'⟩
  | after hc _ ihc ihe =>
    rintro _ ⟨⟩
    obtain ⟨hbc, hbe⟩ := forall_mem_append.mp hb
    refine (ihc hx.1 hnil hbc hbound).bind hc.laid.temps ?_
    exact fun _ _ hcode _ _ _ ha => ihe hx.2 hnil hbe (Nat.le_trans hbound hc.laid.temps) _ rfl hcode ha
  | @moved e _ _ _ _ hc ih =>
    rintro _ ⟨⟩
    have hle := hc.laid.temps
    exact (ih hx htargets hb hbound _ rfl).move hle (Nat.le_trans hbound hle) id
      (fun σ => by cases e.eval m fuel σ <;> rfl) fun _ _ _ ha hv => ⟨ha, hv, Nat.lt_succ_self _⟩
  | noOperands =>
    rintro ts hts
    obtain rfl := map_eq_nil_iff.mp hts.symm
    exact .nil fun σ τ ha => ⟨_, rfl, ha, rfl⟩
  | @operands _ _ _ _ t _ _ _ ts hl _ ihl ihr =>
    intro us hus
    obtain rfl : t :: ts = us := map_injective_iff.mpr (fun _ _ => Expr.temp.inj) hus
    obtain ⟨hbl, hbr⟩ := forall_mem_append.mp hb
    refine (ihl hx.1 hnil hbl hbound t rfl).bind hl.laid.temps ?_
    rintro pre rest hcode _ σ τ ⟨ha, rfl, ht⟩
    refine Follows.bind (Nat.le_refl _) (List.Subset.refl _)
      (ihr hx.2 hnil hbr (Nat.le_trans hbound hl.laid.temps) ts rfl hcode ha) ?_
    rintro _ σ₂ c₂ hk ⟨hrest, ha₂, rfl⟩
    exact .done ⟨hrest, ha₂, by simp [hk t ht]⟩
  | assign => exact hx.elim
  | @store _ _ _ _ t _ _ u _ hl _ ihl ihr =>
    obtain ⟨hbl, hbr⟩ := forall_mem_append.mp hb
    rw [append_assoc]
    refine (ihl hx.1 hnil hbl hbound t rfl).bind hl.laid.temps ?_
    rintro pre rest hcode _ σ τ ⟨ha, rfl, ht⟩
    rw [append_assoc] at hcode ⊢
    refine Follows.bind (Nat.le_refl _) (nil_subset _)
      (ihr hx.2 hnil hbr (Nat.le_trans hbound hl.laid.temps) u rfl hcode ha) ?_
    rintro _ σ₂ ⟨_, τ₂⟩ hk ⟨rfl, ha₂, rfl, -⟩
    refine ⟨1, _, .single rfl, fun _ _ => rfl, rfl, ?_⟩
    have hkept : τ₂.temps t = τ.temps t := hk t ht
    have hmem : τ₂.mem = σ₂.mem := ha₂.mem
    simp only [hkept, hmem]
    exact ha₂.setMem _
  | @branch test yes no s c t s₁ _ ih =>
    refine (ih hx.1 hnil hb hbound t rfl).bind (Nat.le_refl _) ?_
    rintro pre rest hcode _ σ τ ⟨ha, rfl, -⟩
    obtain ⟨r₁, hr₁⟩ := exists_codeAfter (htargets hx.2.1)
    obtain ⟨r₂, hr₂⟩ := exists_codeAfter (htargets hx.2.2)
    -- the label that follows the branch leads to the jump behind it
    have hnext : codeAfter (.fresh s₁.labels) code = some (.jump no :: rest) := by
      rw [hcode, cons_append, append_cons] at hnodup ⊢
      exact codeAfter_of_nodup hnodup
    cases hv : m.holds (τ.temps t) with
    | true => exact ⟨hx.2.1, 0, r₁, τ, hr₁, .single (by simp [step, hv, hr₁]), fun _ _ => rfl, ha⟩
    | false =>
      have h₁ : step m code (.branch (.temp t) yes (.fresh s₁.labels) :: .label (.fresh s₁.labels) ::
          .jump no :: rest, τ) = some (.jump no :: rest, τ) := by simp [step, hv, hnext]
      have h₂ : step m code (.jump no :: rest, τ) = some (r₂, τ) := by simp [step, hr₂]
      exact ⟨hx.2.2, 1, r₂, τ, hr₂, .head h₁ (.single h₂), fun _ _ => rfl, ha⟩
  | jump l s =>
    intro pre rest _ σ τ ha
    obtain ⟨r, hr⟩ := exists_codeAfter (htargets hx)
    exact ⟨hx, 0, r, τ, hr, .single (by simp [step, hr]), fun _ _ => rfl, ha⟩
  | label l s => exact fun pre rest _ σ τ ha => ⟨1, (rest, τ), .single rfl, fun _ _ => rfl, rfl, ha⟩
  | eval hc ih =>
    have hle := hc.laid.temps
    exact (ih hx hnil hb hbound _ rfl).move hle (Nat.le_trans hbound hle) (fun _ => ()) (fun _ => rfl)
      fun _ _ _ ha _ => ha
  | @block ss _ c _ hc ih =>
    intro pre rest hcode σ τ ha
    have hlabels : labelsOf ss ⊆ labelsOf code := by
      intro l hl
      have := hc.laid.labels.mem_iff.mpr (mem_append_left _ (labelsOf_subset ss hl))
      simp [hcode, labelsOf_append, this]
    exact Follows.resume (Starts code (labelsOf ss) (c ++ rest)) (fun l hl r hr => ⟨hl, hr⟩)
      (fun start r hr => ih hx hlabels hb hbound start pre rest r hcode hr) fuel (Nat.le_refl _) none _ rfl σ τ ha
  | noStmts =>
    rintro (_ | l) pre rest r - hstart σ τ ha
    · obtain rfl := hstart
      exact .done ⟨rfl, ha⟩
    · exact absurd hstart.1 not_mem_nil
  | @stmts st ss s c s₁ d s' hc hd ihc ihd =>
    obtain ⟨hbc, hbd⟩ := forall_mem_append.mp hb
    have hle := hc.laid.temps
    rintro start pre rest r hcode hstart σ τ ha
    rw [append_assoc] at hcode hstart
    have hrest := fun start r => ihd hx.2 htargets hbd (Nat.le_trans hbound hle) start (pre ++ c) rest r
      (by rw [hcode, append_assoc])
    cases start with
    | none =>
      obtain rfl := hstart
      refine Follows.bind hle (List.Subset.refl _) (ihc hx.1 htargets hbc hbound hcode ha) ?_
      rintro - σ₁ ⟨_, τ₁⟩ - ⟨rfl, ha₁⟩
      exact hrest none _ rfl σ₁ τ₁ ha₁
    | some l =>
      obtain ⟨hl, hr⟩ := hstart
      rw [Stmt.execFrom]
      refine (hrest _ r ?_ σ τ ha).mono hle (Nat.le_refl _) fun _ _ _ _ hq => hq
      split
      -- behind a label of the block stands the code of the statements behind it
      · cases hc with
        | label k s =>
          obtain rfl : k = l := Option.some.inj ‹_›
          rw [hcode] at hnodup hr
          exact Option.some.inj (hr.symm.trans (codeAfter_of_nodup hnodup))
        | _ => cases ‹Stmt.label? _ = _›
      · exact ⟨(mem_labelsOf_cons.mp hl).resolve_left ‹_›, hr⟩

end

/-! ### Whole statements -/

/-- The statements that are flattened: a structured one, or a move of a structured expression into a
temporary. -/
def Stmt.Generated : Stmt → Prop
  | .move (.temp _) src => src.Structured
  | t => t.Structured []

def Stmt.target? : Stmt → Option Temp
  | .move (.temp t) _ => some t
  | _ => none

theorem Stmt.Generated.placed {t : Stmt} (ht : t.Generated) : Placed t.stmts := by
  unfold Stmt.Generated at ht
  split at ht
  · intro dst src hmem
    rcases mem_cons.mp hmem with heq | hmem
    · cases heq
      exact .inl ⟨_, rfl⟩
    · exact Placed.of_stays (Expr.Structured.stays _ ht) dst src hmem
  · exact .of_stays (Stmt.Structured.stays t [] ht)

theorem Stmt.Generated.exists_flatten {t : Stmt} (ht : t.Generated) (s : Supply) :
    ∃ c s', Gives t.flatten s c s' ∧ Laid s s' t.labels c := by
  obtain ⟨c, s', h⟩ := (t.decides s).exists_gives ht.placed
  exact ⟨c, s', h, (t.flattens h).laid⟩

/-- The code of a statement, run from its beginning, follows the effect of the statement and writes no
old temporary but its target. -/
theorem Stmt.Generated.follows {t : Stmt} (ht : t.Generated) (m : Machine Val Mem) {code : List Stmt}
    {s s' : Supply} (h : Gives t.flatten s code s') (hnodup : (labelsOf code).Nodup)
    (htemps : ∀ u ∈ t.temps, u < s.temps) (fuel : Nat) (σ : State Val Mem) :
    Follows m code s.temps fuel 0 [] (code, σ) (t.exec m fuel σ) fun _ σ' c' => c'.1 = [] ∧
      Agree s.temps σ' c'.2 ∧ ∀ u < s.temps, t.target? ≠ some u → c'.2.temps u = σ.temps u := by
  have ha : Agree s.temps σ σ := ⟨rfl, rfl, fun _ _ => rfl⟩
  unfold Stmt.Generated at ht
  split at ht
  · rename_i u src
    simp only [Stmt.flatten, gives_bind, gives_pure] at h
    obtain ⟨⟨c, f⟩, s₁, hc, rfl, rfl⟩ := h
    have hb : ∀ v ∈ src.temps, v < s.temps := fun v hv => htemps v (by simp [Stmt.temps, hv])
    refine Follows.bind (Nat.le_refl 0) (List.Subset.refl _)
      (((src.flattens hc).simulated hnodup ht (nil_subset _) hb (Nat.le_refl _) f rfl
        (nil_append _).symm ha).mono (Nat.zero_le _) (Nat.le_refl _) fun _ _ _ hk hq => And.intro hk hq) ?_
    rintro v σ₁ ⟨r, τ₁⟩ - ⟨hk, rfl, τ', hf, hτ, ha₁⟩
    refine follows_move (Nat.zero_le _) hf hτ ⟨rfl, ⟨ha₁.mem, ha₁.calls, fun w hw => ?_⟩, ?_⟩
    · simp only [State.setTemp]
      split
      · rfl
      · exact ha₁.temps w hw
    · intro w hw hne
      have hwu : w ≠ u := fun e => hne (by simp [Stmt.target?, e])
      simp [State.setTemp, hwu, hτ, show τ₁.temps w = σ.temps w from hk w hw]
  · have h' : Simulates m code s.temps fuel s.temps [] code (t.exec m fuel) fun _ => Agree s.temps :=
      (t.flattens h).simulated hnodup ht (nil_subset _) htemps (Nat.le_refl _)
    have h' := h' (show code = [] ++ (code ++ []) by simp) ha
    rw [append_nil] at h'
    exact h'.mono (Nat.zero_le _) (Nat.le_refl _) fun _ _ _ hk hq => ⟨hq.1, hq.2, fun u hu _ => hk u hu⟩

/-- Flattening a statement of generated shape, out of a supply above its temporaries and labels,
gives code that does what the statement does. Each halts if the other does, after the same calls with
the same arguments, in the same memory, and with the same old temporaries, of which only the target of
the statement is written; and as long as they run, neither makes a call that the other does not. -/
theorem flatten_preserves_meaning (m : Machine Val Mem) {t : Stmt} (ht : t.Generated)
    (hnodup : t.labels.Nodup) (s : Supply) (htemps : ∀ u ∈ t.temps, u < s.temps)
    (hlabels : ∀ n, .fresh n ∈ t.labels → n < s.labels) :
    ∃ code s', Gives t.flatten s code s' ∧ ∀ σ : State Val Mem,
      (∀ σ', t.Evaluates m σ σ' → ∃ τ, Halts m code σ τ ∧ Agree s.temps σ' τ) ∧
      (∀ τ, Halts m code σ τ → (∃ σ', t.Evaluates m σ σ' ∧ Agree s.temps σ' τ) ∧
        ∀ u < s.temps, t.target? ≠ some u → τ.temps u = σ.temps u) ∧
      (∀ fuel, ∃ n c, Steps m code n (code, σ) c ∧ c.2.calls = (t.exec m fuel σ).state.calls) ∧
      ∀ n c, Steps m code n (code, σ) c → ∃ fuel, c.2.calls <+: (t.exec m fuel σ).state.calls := by
  obtain ⟨code, s', h, hl⟩ := ht.exists_flatten s
  have follows := ht.follows m h (hl.nodup hnodup hlabels) htemps
  refine ⟨code, s', h, fun σ => ⟨?_, ?_, ?_, ?_⟩⟩
  · rintro σ' ⟨fuel, hdone⟩
    have hf := follows fuel σ
    rw [hdone] at hf
    obtain ⟨n, ⟨r, τ⟩, hn, -, rfl, ha, -⟩ := hf
    exact ⟨τ, ⟨n, hn⟩, ha⟩
  · -- with more jumps allowed than the code has steps, the evaluation cannot spend them
    rintro τ ⟨n, hn⟩
    have hf := follows (n + 1) σ
    cases ho : t.exec m (n + 1) σ with
    | done a σ' =>
      rw [ho] at hf
      obtain ⟨k, ⟨r, τ'⟩, hk, -, rfl, ha, hold⟩ := hf
      obtain rfl : n = k := Nat.le_antisymm (hk.le_of_halted hn) (hn.le_of_halted hk)
      cases hn.det hk
      exact ⟨⟨σ', ⟨n + 1, ho⟩, ha⟩, hold⟩
    | jump l σ' => rw [ho] at hf; simp [Follows] at hf
    | spent σ' =>
      rw [ho] at hf
      obtain ⟨k, c, hle, hk, -⟩ := hf
      have := hn.le_of_halted hk
      omega
  · intro fuel
    have hf := follows fuel σ
    cases ho : t.exec m fuel σ with
    | done a σ' =>
      rw [ho] at hf
      obtain ⟨n, c, hn, -, -, ha, -⟩ := hf
      exact ⟨n, c, hn, ha.calls⟩
    | jump l σ' => rw [ho] at hf; simp [Follows] at hf
    | spent σ' =>
      rw [ho] at hf
      obtain ⟨n, c, -, hn, ha⟩ := hf
      exact ⟨n, c, hn, ha.calls⟩
  · intro n c hn
    refine ⟨n, ?_⟩
    have hf := follows n σ
    cases ho : t.exec m n σ with
    | done a σ' =>
      rw [ho] at hf
      obtain ⟨k, ⟨r, τ⟩, hk, -, rfl, ha, -⟩ := hf
      obtain ⟨d, rfl⟩ := Nat.exists_eq_add_of_le (hk.le_of_halted hn)
      have := (hn.split hk).prefix_calls
      rwa [ha.calls] at this
    | jump l σ' => rw [ho] at hf; simp [Follows] at hf
    | spent σ' =>
      rw [ho] at hf
      obtain ⟨k, c', hle, hk, ha⟩ := hf
      obtain ⟨d, rfl⟩ := Nat.exists_eq_add_of_le hle
      have := (hn.split hk).prefix_calls
      rwa [ha.calls] at this

/-- Integers without bounds, and a call that adds up its arguments and counts itself at address 0. -/
def countingMachine : Machine Int (Int → Int) where
  const := id
  address _ := 0
  load mem a := mem a
  store mem a x := fun b => if b = a then x else mem b
  binary op x y := if op = .lt then (if x < y then 1 else 0) else x + y
  unary _ x := -x
  holds x := x != 0
  call _ args mem := (args.sum, fun b => if b = 0 then mem 0 + 1 else mem b)

/-- Doubles the word at the address in `T0` by calls until it is not below 10, and moves it to `T1`. -/
def doubling : Stmt :=
  .move (.temp 1) (.after (.block [.label (.fresh 0),
    .branch (.binop .lt (.mem (.temp 0)) (.const 10)) (.fresh 1) (.fresh 2), .label (.fresh 1),
    .move (.mem (.temp 0)) (.call (.named "sum") [.mem (.temp 0), .mem (.temp 0)]), .jump (.fresh 0),
    .label (.fresh 2)]) (.mem (.temp 0)))

theorem doubling_halts : ∃ code s', Gives doubling.flatten ⟨2, 3⟩ code s' ∧
    ∃ τ, Halts countingMachine code ⟨fun _ => 8, fun _ => 3, []⟩ τ ∧ τ.temps 1 = 12 ∧ τ.mem 0 = 5 ∧
      τ.calls = [(.named "sum", [3, 3]), (.named "sum", [6, 6])] := by
  obtain ⟨code, s', h, hm⟩ := flatten_preserves_meaning countingMachine
    (t := doubling) (by simp [doubling, Stmt.Generated, Expr.Structured, Stmt.Structured,
      Stmt.StructuredAll, Expr.StructuredAll, labelsOf, Stmt.label?])
    (by decide) ⟨2, 3⟩ (by decide)
    (by simp [doubling, Stmt.labels, Expr.labels, Stmt.labelsAll, Expr.labelsAll])
  obtain ⟨τ, hτ, ha⟩ := (hm ⟨fun _ => 8, fun _ => 3, []⟩).1 _ ⟨6, rfl⟩
  exact ⟨code, s', h, τ, hτ, ha.temps 1 (by decide), congrFun ha.mem 0, ha.calls⟩

end MmixCompiler.Ir
