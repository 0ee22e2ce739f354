import MmixCompiler.Proofs.Ir.Canonical

/-! Flattening accounts for everything. It fails on a tree if and only if something is moved in it to where nothing can
be moved to. Otherwise the code assigns each temporary that it takes exactly once, the labels that it takes are those
to which its branches go otherwise, in order, and operations can be chosen for it. -/

namespace MmixCompiler.Ir

open Fresh

/-- The label that a branch goes to otherwise. -/
def Stmt.otherwise? : Stmt → Option Label
  | .branch _ _ no => some no
  | _ => none

/-- What code takes from a supply, if the tree has the given temporaries. -/
structure Allots (ts : List Temp) (s s' : Supply) (code : List Stmt) : Prop where
  temps : s.temps ≤ s'.temps
  labels : s.labels ≤ s'.labels
  targets : ∀ t ∉ ts, (code.filterMap Stmt.target?).count t = if s.temps ≤ t ∧ t < s'.temps then 1 else 0
  branches : code.filterMap Stmt.otherwise? = (List.range' s.labels (s'.labels - s.labels)).map .fresh

namespace Allots

variable {ts ts' : List Temp} {s s₁ s₂ : Supply} {a b : List Stmt}

theorem same (s : Supply) (htargets : ∀ st ∈ a, ∀ t, st.target? = some t → t ∈ ts)
    (hbranches : ∀ st ∈ a, st.otherwise? = none) : Allots ts s s a where
  temps := Nat.le_refl _
  labels := Nat.le_refl _
  targets t ht := by
    rw [if_neg fun h => Nat.not_lt.mpr h.1 h.2, List.count_eq_zero, List.mem_filterMap]
    rintro ⟨st, hst, htarget⟩
    exact ht (htargets st hst t htarget)
  branches := by simpa [List.filterMap_eq_nil_iff] using hbranches

theorem nil (s : Supply) : Allots ts s s [] := same s (by simp) (by simp)

theorem mono (h : Allots ts s s₁ a) (hts : ts ⊆ ts') : Allots ts' s s₁ a :=
  { h with targets := fun t ht => h.targets t fun hmem => ht (hts hmem) }

theorem append (ha : Allots ts s s₁ a) (hb : Allots ts' s₁ s₂ b) : Allots (ts ++ ts') s s₂ (a ++ b) where
  temps := Nat.le_trans ha.temps hb.temps
  labels := Nat.le_trans ha.labels hb.labels
  targets t ht := by
    have hs := ha.temps
    have hs' := hb.temps
    rw [List.mem_append, not_or] at ht
    rw [List.filterMap_append, List.count_append, ha.targets t ht.1, hb.targets t ht.2]
    grind
  branches := by
    have hs := ha.labels
    have hs' := hb.labels
    have hsplit : s₂.labels - s.labels = (s₁.labels - s.labels) + (s₂.labels - s₁.labels) := by omega
    rw [List.filterMap_append, ha.branches, hb.branches, hsplit, ← List.range'_append, List.map_append, Nat.one_mul,
      Nat.add_sub_of_le hs]

theorem move (s : Supply) (e : Expr) : Allots [] s ⟨s.temps + 1, s.labels⟩ [.move (.temp s.temps) e] where
  temps := Nat.le_succ _
  labels := Nat.le_refl _
  targets t _ := by
    simp only [List.filterMap_cons, List.filterMap_nil, Stmt.target?, List.count_singleton, beq_iff_eq]
    grind
  branches := by simp [Stmt.otherwise?]

theorem branch (s : Supply) (t : Temp) (yes no : Label) : Allots [] s ⟨s.temps, s.labels + 1⟩
    [.branch (.temp t) yes (.fresh s.labels), .label (.fresh s.labels), .jump no] where
  temps := Nat.le_refl _
  labels := Nat.le_succ _
  targets t _ := by
    have hnone : ¬ (s.temps ≤ t ∧ t < s.temps) := fun h => Nat.not_lt.mpr h.1 h.2
    rw [if_neg hnone]
    rfl
  branches := by simp [Stmt.otherwise?]

end Allots

theorem Flattens.allots {x : Part} {s s' : Supply} {c : List Stmt} {r : List Expr} (h : Flattens x s c r s') :
    Allots x.contents.temps s s' c := by
  induction h with
  | const | name | temp | held | noOperands | noStmts => exact .nil _
  | mem _ ih | unop _ ih | call _ ih | block _ ih => exact ih
  | binop _ _ ihl ihr | after _ _ ihl ihr | operands _ _ ihl ihr | stmts _ _ ihl ihr => exact ihl.append ihr
  | @moved _ _ _ f s₁ _ ih | @eval _ _ _ f s₁ _ ih =>
    exact (ih.append (.move s₁ f)).mono (List.append_subset.mpr ⟨List.Subset.refl _, List.nil_subset _⟩)
  | @assign t _ _ _ f s' _ ih =>
    have hmove : Allots [t] s' s' [.move (.temp t) f] := .same s' (by simp [Stmt.target?]) (by simp [Stmt.otherwise?])
    exact (ih.append hmove).mono (List.perm_append_comm.subset)
  | @store _ _ _ _ t _ _ u s' _ _ ihl ihr =>
    have hstore : Allots [] s' s' [.move (.mem (.temp t)) (.temp u)] :=
      .same s' (by simp [Stmt.target?]) (by simp [Stmt.otherwise?])
    have hcode := (ihl.append ihr).append hstore
    rwa [List.append_nil] at hcode
  | @branch _ yes no _ _ t s₁ _ ih =>
    exact (ih.append (.branch s₁ t yes no)).mono (List.append_subset.mpr ⟨List.Subset.refl _, List.nil_subset _⟩)
  | jump | label => exact .same _ (by simp [Stmt.target?]) (by simp [Stmt.otherwise?])

theorem Stmt.allots (st : Stmt) (s : Supply) (c : List Stmt) (s' : Supply) (h : Gives st.flatten s c s') :
    Allots st.temps s s' c :=
  (st.flattens h).allots

theorem stmtsAll_of_temps {es : List Expr} (h : ∀ e ∈ es, ∃ t, e = .temp t) : Expr.stmtsAll es = [] := by
  induction es with
  | nil => rfl
  | cons e es ih =>
    obtain ⟨⟨t, rfl⟩, hes⟩ := List.forall_mem_cons.mp h
    simpa [Expr.stmtsAll, Expr.stmts] using ih hes

theorem Expr.Operation.stmts_eq_nil {e : Expr} (h : e.Operation) : e.stmts = [] := by
  cases e with
  | const | name | temp => rfl
  | mem e | unop _ e =>
    obtain ⟨t, rfl⟩ := h
    rfl
  | binop _ lhs rhs =>
    obtain ⟨⟨t, rfl⟩, ⟨t', rfl⟩⟩ := h
    rfl
  | call _ args => exact stmtsAll_of_temps h
  | after => exact h.elim

theorem Stmt.Canonical.stmts_eq {st : Stmt} (h : st.Canonical) :
    st.stmts = [st] ∧ (∀ e, st ≠ .eval e) ∧ ∀ ss, st ≠ .block ss := by
  unfold Stmt.Canonical at h
  split at h
  · exact ⟨by simp [Stmt.stmts, Expr.stmts, h.stmts_eq_nil], by simp, by simp⟩
  · obtain ⟨⟨t, rfl⟩, ⟨t', rfl⟩⟩ := h
    exact ⟨rfl, by simp, by simp⟩
  · obtain ⟨t, rfl⟩ := h
    exact ⟨rfl, by simp, by simp⟩
  · exact ⟨rfl, by simp, by simp⟩
  · exact ⟨rfl, by simp, by simp⟩
  · exact h.elim

end Ir

open Fresh

theorem CodeChunk.exists_routine {c : CodeChunk} (h : ∀ st ∈ c.stmts, st.Canonical) (kept : Nat) (s : Supply) :
    ∃ r s', Gives (c.select kept) s r s' := by
  obtain ⟨blocks, s', hblocks⟩ := exists_gives_mapM (fun st hst => exists_select (h st hst) kept) s
  simp only [CodeChunk.select, Ir.Stmt.selectAll, gives_bind, gives_pure]
  exact ⟨_, s', _, s', ⟨blocks, s', hblocks, rfl, rfl⟩, rfl, rfl⟩

namespace Ir

/-- Flattening fails on trees with a move to no place only. Otherwise its code is canonical, with nothing nested in it;
branches go otherwise to the labels that are taken, which follow them; a temporary that is not of the tree is one that
is taken, and assigned once; and the code can be turned into operations. -/
theorem flatten_canonical_selectable (st : Stmt) (s : Supply) :
    ((∃ e s', outcome st.flatten s = (.error e, s')) ↔
      ∃ dst src, .move dst src ∈ st.stmts ∧ (∀ t, dst ≠ .temp t) ∧ ∀ address, dst ≠ .mem address) ∧
    (∀ e s', outcome st.flatten s = (.error e, s') →
      ∃ dst src, .move dst src ∈ st.stmts ∧ e = .internal (.moveInto dst)) ∧
    ∀ code s', Gives st.flatten s code s' →
      (∀ u ∈ code, u.Canonical ∧ u.stmts = [u] ∧ (∀ e, u ≠ .eval e) ∧ ∀ ss, u ≠ .block ss) ∧
      (∀ k test yes no, code[k]? = some (.branch test yes no) → code[k + 1]? = some (.label no)) ∧
      code.filterMap Stmt.otherwise? = (List.range' s.labels (s'.labels - s.labels)).map .fresh ∧
      (∀ u ∈ code, ∀ t ∈ u.temps, t ∉ st.temps →
        (s.temps ≤ t ∧ t < s'.temps) ∧ (code.filterMap Stmt.target?).count t = 1) ∧
      ∀ (c : CodeChunk) (kept : Nat) (s₂ : Supply), c.stmts = code → ∃ r s₃, Gives (c.select kept) s₂ r s₃ := by
  have hdecides : Decides st.stmts s st.flatten := st.decides s
  refine ⟨⟨fun ⟨e, s', he⟩ => ?_, fun ⟨dst, src, hmem, htemp, haddress⟩ => ?_⟩, fun e s' he => ?_,
    fun code s' hcode => ?_⟩
  · obtain ⟨dst, src, hmem, hplace, -⟩ : Misplaced st.stmts e := hdecides.of_error he
    exact ⟨dst, src, hmem, fun t ht => hplace (.inl ⟨t, ht⟩), fun a ha => hplace (.inr ⟨a, ha⟩)⟩
  · rcases hx : outcome st.flatten s with ⟨e | code, s'⟩
    · exact ⟨e, s', rfl⟩
    · have hplaced : Placed st.stmts := hdecides.of_gives hx
      rcases hplaced dst src hmem with ⟨t, ht⟩ | ⟨a, ha⟩
      · exact absurd ht (htemp t)
      · exact absurd ha (haddress a)
  · obtain ⟨dst, src, hmem, -, hfault⟩ : Misplaced st.stmts e := hdecides.of_error he
    exact ⟨dst, src, hmem, hfault⟩
  · have hflat := st.flat s code s' hcode
    have hallots := st.allots s code s' hcode
    refine ⟨fun u hu => ⟨hflat.forms u hu, (hflat.forms u hu).stmts_eq⟩, hflat.falls, hallots.branches,
      fun u hu t ht hnew => ?_, fun c kept s₂ hc => ?_⟩
    · have hfresh := (hflat.temps u hu t ht).resolve_left hnew
      exact ⟨hfresh, by rw [hallots.targets t hnew, if_pos hfresh]⟩
    · exact CodeChunk.exists_routine (hc ▸ hflat.forms) kept s₂

end MmixCompiler.Ir
