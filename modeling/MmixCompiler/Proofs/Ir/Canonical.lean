import MmixCompiler.Proofs.Mmix.Selection

/-! Flattened code is canonical, whatever the tree. Its statements have the forms that selection takes, every
branch is followed by the label that it goes to otherwise, and jumps go to where the tree has jumps or to labels
of the code. A temporary that is not of the tree is fresh, and its value needs no later one. -/

namespace MmixCompiler.Ir

open Fresh List

mutual

/-- The labels whose addresses a tree takes, or that it calls. -/
def Expr.names : Expr → List Label
  | .const _ | .temp _ => []
  | .name l => [l]
  | .mem address => address.names
  | .binop _ lhs rhs => lhs.names ++ rhs.names
  | .unop _ operand => operand.names
  | .call l args => l :: Expr.namesAll args
  | .after stmt value => stmt.names ++ value.names

def Expr.namesAll : List Expr → List Label
  | [] => []
  | e :: es => e.names ++ Expr.namesAll es

def Stmt.names : Stmt → List Label
  | .move dst src => dst.names ++ src.names
  | .branch test _ _ => test.names
  | .jump _ | .label _ => []
  | .eval value => value.names
  | .block stmts => Stmt.namesAll stmts

def Stmt.namesAll : List Stmt → List Label
  | [] => []
  | s :: ss => s.names ++ Stmt.namesAll ss

end

/-- A canonical statement as an instruction that reads, writes and goes where it does. -/
def Stmt.outline : Stmt → Mmix.Instr
  | .label l => .label l
  | .move (.temp t) src => .oper ⟨"", src.temps, [t], []⟩
  | st => .oper ⟨"", st.temps, [], st.gotos⟩

theorem Stmt.mem_outline_defs {st : Stmt} {t : Temp} (h : t ∈ st.outline.defs) : ∃ e, st = .move (.temp t) e := by
  unfold Stmt.outline at h
  split at h
  · cases h
  · exact ⟨_, by rw [mem_singleton.mp h]⟩
  · cases h

theorem Stmt.outline_uses_subset (st : Stmt) : st.outline.uses ⊆ st.temps := by
  unfold Stmt.outline
  split
  · exact nil_subset _
  · exact subset_append_right ..
  · exact List.Subset.refl _

/-- What trees are made of. -/
structure Contents where
  stmts : List Stmt
  temps : List Temp
  names : List Label

def Expr.contents (e : Expr) : Contents := ⟨e.stmts, e.temps, e.names⟩

def Stmt.contents (s : Stmt) : Contents := ⟨s.stmts, s.temps, s.names⟩

def Part.contents : Part → Contents
  | .value e | .operand e => e.contents
  | .operands es => ⟨Expr.stmtsAll es, Expr.tempsAll es, Expr.namesAll es⟩
  | .stmt st => st.contents
  | .stmts ss => ⟨Stmt.stmtsAll ss, Stmt.tempsAll ss, Stmt.namesAll ss⟩

/-- One tree is a part of another. -/
structure Contents.Within (a b : Contents) : Prop where
  stmts : a.stmts ⊆ b.stmts
  temps : a.temps ⊆ b.temps
  names : a.names ⊆ b.names

namespace Contents

def append (a b : Contents) : Contents := ⟨a.stmts ++ b.stmts, a.temps ++ b.temps, a.names ++ b.names⟩

theorem within_append_left (a b : Contents) : a.Within (a.append b) :=
  ⟨subset_append_left .., subset_append_left .., subset_append_left ..⟩

theorem within_append_right (a b : Contents) : b.Within (a.append b) :=
  ⟨subset_append_right .., subset_append_right .., subset_append_right ..⟩

end Contents

/-- After every branch comes the label that it goes to otherwise. -/
def Falls (code : List Stmt) : Prop :=
  ∀ k test yes no, code[k]? = some (.branch test yes no) → code[k + 1]? = some (.label no)

namespace Falls

variable {a b : List Stmt}

theorem nil : Falls [] := by simp [Falls]

theorem append (ha : Falls a) (hb : Falls b) : Falls (a ++ b) := by
  intro k test yes no h
  rw [getElem?_append] at h ⊢
  split at h
  · have hnext := ha k test yes no h
    have hlt : k + 1 < a.length := (List.getElem?_eq_some_iff.mp hnext).1
    rw [if_pos hlt, hnext]
  · next hk =>
    rw [if_neg (by omega), show k + 1 - a.length = k - a.length + 1 by omega]
    exact hb _ test yes no h

theorem single {st : Stmt} (h : ∀ test yes no, st ≠ .branch test yes no) : Falls [st] := by
  intro k test yes no hk
  cases k with
  | zero => exact absurd (Option.some.inj hk) (h test yes no)
  | succ k => simp at hk

end Falls

/-- A temporary of the tree, or one that was taken. -/
def Known (ts : List Temp) (s s' : Supply) (t : Temp) : Prop := t ∈ ts ∨ s.temps ≤ t ∧ t < s'.temps

theorem Known.mono {ts ts' : List Temp} {s s₁ s₂ s' : Supply} {t : Temp} (h : Known ts s₁ s₂ t) (hts : ts ⊆ ts')
    (hs : s.temps ≤ s₁.temps) (hs' : s₂.temps ≤ s'.temps) : Known ts' s s' t :=
  h.imp (hts ·) fun ht => ⟨Nat.le_trans hs ht.1, Nat.lt_of_lt_of_le ht.2 hs'⟩

/-- An operation on temporaries that are known. -/
structure Operates (tree : Contents) (s s' : Supply) (e : Expr) : Prop where
  operation : e.Operation
  temps : ∀ t ∈ e.temps, Known tree.temps s s' t
  names : e.names ⊆ tree.names

theorem operates_temp {tree : Contents} {s s' : Supply} {t : Temp} :
    Operates tree s s' (.temp t) ↔ Known tree.temps s s' t :=
  ⟨fun h => h.temps t mem_cons_self, fun h => ⟨trivial, by simpa [Expr.temps] using h, nil_subset _⟩⟩

theorem Operates.mono {tree tree' : Contents} {s s₁ s₂ s' : Supply} {e : Expr} (h : Operates tree s₁ s₂ e)
    (htree : tree.Within tree') (hs : s.temps ≤ s₁.temps) (hs' : s₂.temps ≤ s'.temps) : Operates tree' s s' e :=
  ⟨h.operation, fun t ht => (h.temps t ht).mono htree.temps hs hs', List.Subset.trans h.names htree.names⟩

structure Flat (tree : Contents) (s s' : Supply) (code : List Stmt) : Prop where
  supply : s.temps ≤ s'.temps
  forms : ∀ st ∈ code, st.Canonical
  temps : ∀ st ∈ code, ∀ t ∈ st.temps, Known tree.temps s s' t
  names : ∀ st ∈ code, st.names ⊆ tree.names
  gotos : ∀ st ∈ code, ∀ l ∈ st.gotos, (∃ u ∈ tree.stmts, l ∈ u.gotos) ∨ l ∈ labelsOf code
  writes : ∀ t e, .move (.temp t) e ∈ code → (∃ src, .move (.temp t) src ∈ tree.stmts) ∨
    s.temps ≤ t ∧ ∀ u ∈ e.temps, u ∈ tree.temps ∨ s.temps ≤ u ∧ u < t
  falls : Falls code

namespace Flat

variable {tree tree' : Contents} {s s₁ s₂ : Supply} {a b : List Stmt}

theorem nil (s : Supply) : Flat tree s s [] := ⟨Nat.le_refl _, by simp, by simp, by simp, by simp, by simp, .nil⟩

theorem mono (h : Flat tree s s₁ a) (htree : tree.Within tree') : Flat tree' s s₁ a where
  supply := h.supply
  forms := h.forms
  temps st hst t ht := (h.temps st hst t ht).mono htree.temps (Nat.le_refl _) (Nat.le_refl _)
  names st hst := List.Subset.trans (h.names st hst) htree.names
  gotos st hst l hl := (h.gotos st hst l hl).imp_left fun htarget => htarget.imp fun _ hu => ⟨htree.stmts hu.1, hu.2⟩
  writes t e hmove := (h.writes t e hmove).imp (fun hsrc => hsrc.imp fun _ hmem => htree.stmts hmem)
    fun hfresh => ⟨hfresh.1, fun u hu => (hfresh.2 u hu).imp_left (htree.temps ·)⟩
  falls := h.falls

theorem extend (h : Flat tree s s₁ a) (hs : s₁.temps ≤ s₂.temps) (hforms : ∀ st ∈ b, st.Canonical)
    (htemps : ∀ st ∈ b, ∀ t ∈ st.temps, Known tree.temps s s₂ t) (hnames : ∀ st ∈ b, st.names ⊆ tree.names)
    (hgotos : ∀ st ∈ b, ∀ l ∈ st.gotos, (∃ u ∈ tree.stmts, l ∈ u.gotos) ∨ l ∈ labelsOf b)
    (hwrites : ∀ t e, .move (.temp t) e ∈ b → (∃ src, .move (.temp t) src ∈ tree.stmts) ∨
      s.temps ≤ t ∧ ∀ u ∈ e.temps, u ∈ tree.temps ∨ s.temps ≤ u ∧ u < t)
    (hfalls : Falls b) : Flat tree s s₂ (a ++ b) := by
  refine ⟨Nat.le_trans h.supply hs, ?_, ?_, ?_, ?_, ?_, h.falls.append hfalls⟩
  · exact fun st hst => (mem_append.mp hst).elim (h.forms st) (hforms st)
  · intro st hst t ht
    rcases mem_append.mp hst with hst | hst
    · exact (h.temps st hst t ht).mono (List.Subset.refl _) (Nat.le_refl _) hs
    · exact htemps st hst t ht
  · exact fun st hst => (mem_append.mp hst).elim (h.names st) (hnames st)
  · intro st hst l hl
    rw [labelsOf_append, mem_append]
    rcases mem_append.mp hst with hst | hst
    · exact (h.gotos st hst l hl).imp_right .inl
    · exact (hgotos st hst l hl).imp_right .inr
  · exact fun t e hmove => (mem_append.mp hmove).elim (h.writes t e) (hwrites t e)

theorem append (ha : Flat tree s s₁ a) (hb : Flat tree' s₁ s₂ b) : Flat (tree.append tree') s s₂ (a ++ b) := by
  have hs := ha.supply
  have hb' := hb.mono (tree.within_append_right tree')
  refine (ha.mono (tree.within_append_left tree')).extend hb.supply hb.forms ?_ hb'.names hb'.gotos ?_ hb.falls
  · exact fun st hst t ht => (hb'.temps st hst t ht).mono (List.Subset.refl _) hs (Nat.le_refl _)
  · intro t e hmove
    apply (hb'.writes t e hmove).imp_right
    rintro ⟨hle, hreads⟩
    refine ⟨Nat.le_trans hs hle, fun u hu => ?_⟩
    apply (hreads u hu).imp_right
    rintro ⟨hle', hlt⟩
    exact ⟨Nat.le_trans hs hle', hlt⟩

theorem known_both (ha : Flat tree s s₁ a) (hb : Flat tree' s₁ s₂ b) {t u : Temp} (ht : Known tree.temps s s₁ t)
    (hu : Known tree'.temps s₁ s₂ u) : ∀ v ∈ [t, u], Known (tree.append tree').temps s s₂ v :=
  forall_mem_cons.mpr ⟨ht.mono (tree.within_append_left tree').temps (Nat.le_refl _) hb.supply,
    forall_mem_singleton.mpr (hu.mono (tree.within_append_right tree').temps ha.supply (Nat.le_refl _))⟩

theorem move (h : Flat tree s s₁ a) {e : Expr} {t : Temp} (he : Operates tree s s₁ e) (hs : s₁.temps ≤ s₂.temps)
    (ht : (∃ src, .move (.temp t) src ∈ tree.stmts) ∧ t ∈ tree.temps ∨ t = s₁.temps ∧ t < s₂.temps) :
    Flat tree s s₂ (a ++ [.move (.temp t) e]) := by
  refine h.extend hs (by simpa [Stmt.Canonical] using he.operation) ?_
    (by simpa [Stmt.names, Expr.names] using he.names) (by simp [Stmt.gotos]) ?_ (.single (by simp))
  · intro st hst u hu
    obtain rfl := mem_singleton.mp hst
    rcases mem_append.mp hu with hu | hu
    · obtain rfl := mem_singleton.mp hu
      apply ht.imp (·.2)
      rintro ⟨heq, hlt⟩
      exact ⟨heq ▸ h.supply, hlt⟩
    · exact (he.temps u hu).mono (List.Subset.refl _) (Nat.le_refl _) hs
  · intro u f hmove
    obtain ⟨rfl, rfl⟩ : u = t ∧ f = e := by simpa using hmove
    apply ht.imp (·.1)
    rintro ⟨heq, _⟩
    refine ⟨heq ▸ h.supply, fun v hv => ?_⟩
    apply (he.temps v hv).imp_right
    rintro ⟨hle, hlt⟩
    exact ⟨hle, heq ▸ hlt⟩

theorem branch (h : Flat tree s s₁ a) {test : Expr} {t : Temp} {yes no next : Label} (ht : Known tree.temps s s₁ t)
    (hmem : .branch test yes no ∈ tree.stmts) (hs : s₁.temps = s₂.temps) :
    Flat tree s s₂ (a ++ [.branch (.temp t) yes next, .label next, .jump no]) := by
  have hgoto : ∀ l ∈ [yes, no], ∃ u ∈ tree.stmts, l ∈ u.gotos := fun l hl => ⟨_, hmem, hl⟩
  have hfalls : Falls [.branch (.temp t) yes next, .label next, .jump no] := by
    intro k test' yes' no' hk
    rcases k with _ | _ | _ | k
    · cases hk
      rfl
    · simp at hk
    · simp at hk
    · simp at hk
  refine h.extend (Nat.le_of_eq hs) (by simp [Stmt.Canonical]) ?_ (by simp [Stmt.names, Expr.names]) ?_ (by simp) hfalls
  · simpa [Stmt.temps, Expr.temps, Known, hs] using ht
  · intro st hst l hl
    rcases mem_cons.mp hst with rfl | hst
    · rcases mem_cons.mp hl with rfl | hl
      · exact .inl (hgoto _ mem_cons_self)
      · exact .inr (by simpa [labelsOf, Stmt.label?] using (mem_singleton.mp hl).symm)
    · refine .inl (hgoto l (mem_cons_of_mem _ ?_))
      rcases mem_cons.mp hst with rfl | hst
      · cases hl
      · obtain rfl := mem_singleton.mp hst
        exact hl

end Flat

/-- The code of an expression is flat, and its last operation works on known temporaries. -/
structure FlatExpr (e : Expr) (s s' : Supply) (code : List Stmt) (last : Expr) : Prop
    extends Operates e.contents s s' last where
  flat : Flat e.contents s s' code

theorem namesAll_map_temp (ts : List Temp) : Expr.namesAll (ts.map .temp) = [] := by
  induction ts with
  | nil => rfl
  | cons t ts ih => simpa [Expr.namesAll, Expr.names] using ih

theorem Flattens.flat {x : Part} {s s' : Supply} {c : List Stmt} {r : List Expr} (h : Flattens x s c r s') :
    Flat x.contents s s' c ∧ ∀ f ∈ r, Operates x.contents s s' f := by
  induction h with
  | const | name | temp =>
    exact ⟨.nil _, forall_mem_singleton.mpr ⟨trivial, fun t ht => .inl ht, List.Subset.refl _⟩⟩
  | mem _ ih | unop _ ih =>
    obtain ⟨hflat, ht⟩ := ih
    simp only [forall_mem_singleton, operates_temp] at ht ⊢
    exact ⟨hflat, ⟨_, rfl⟩, forall_mem_singleton.mpr ht, by simp [Expr.names]⟩
  | binop _ _ ihl ihr =>
    obtain ⟨hflat, ht⟩ := ihl
    obtain ⟨hflat', hu⟩ := ihr
    simp only [forall_mem_singleton, operates_temp] at ht hu ⊢
    exact ⟨hflat.append hflat', ⟨⟨_, rfl⟩, ⟨_, rfl⟩⟩, hflat.known_both hflat' ht hu, by simp [Expr.names]⟩
  | call _ ih =>
    obtain ⟨hflat, hts⟩ := ih
    simp only [forall_mem_map, operates_temp] at hts
    refine ⟨hflat.mono ⟨List.Subset.refl _, List.Subset.refl _, subset_cons_self ..⟩,
      forall_mem_singleton.mpr ⟨by simp [Expr.Operation], fun t ht => hts t ?_, ?_⟩⟩
    · rwa [Expr.temps, tempsAll_map_temp] at ht
    · simp [Expr.names, namesAll_map_temp, Part.contents, Expr.contents]
  | @after st e _ _ _ _ _ _ _ _ ihl ihr =>
    obtain ⟨hflat, -⟩ := ihl
    obtain ⟨hflat', hf⟩ := ihr
    exact ⟨hflat.append hflat',
      fun f hmem => (hf f hmem).mono (st.contents.within_append_right e.contents) hflat.supply (Nat.le_refl _)⟩
  | held => exact ⟨.nil _, forall_mem_singleton.mpr (operates_temp.mpr (.inl mem_cons_self))⟩
  | moved _ ih =>
    obtain ⟨hflat, hf⟩ := ih
    refine ⟨hflat.move (hf _ mem_cons_self) (Nat.le_succ _) (.inr ⟨rfl, Nat.lt_succ_self _⟩), ?_⟩
    exact forall_mem_singleton.mpr (operates_temp.mpr (.inr ⟨hflat.supply, Nat.lt_succ_self _⟩))
  | noOperands | noStmts => exact ⟨.nil _, forall_mem_nil _⟩
  | @operands e es _ _ _ _ _ _ _ _ _ ihl ihr =>
    have hleft := (Part.operand e).contents.within_append_left (Part.operands es).contents
    have hright := (Part.operand e).contents.within_append_right (Part.operands es).contents
    obtain ⟨hflat, ht⟩ := ihl
    obtain ⟨hflat', hts⟩ := ihr
    refine ⟨hflat.append hflat', forall_mem_cons.mpr ⟨?_, fun f hf => ?_⟩⟩
    · exact (ht _ mem_cons_self).mono hleft (Nat.le_refl _) hflat'.supply
    · exact (hts f hf).mono hright hflat.supply (Nat.le_refl _)
  | @assign t e s _ f s' _ ih =>
    obtain ⟨hflat, hf⟩ := ih
    have htree : e.contents.Within (Stmt.move (.temp t) e).contents :=
      ⟨subset_cons_self .., subset_cons_self .., List.Subset.refl _⟩
    refine ⟨(hflat.mono htree).move ((hf f mem_cons_self).mono htree (Nat.le_refl _) (Nat.le_refl _))
      (Nat.le_refl _) (.inl ⟨⟨e, mem_cons_self⟩, mem_cons_self⟩), forall_mem_nil _⟩
  | @store address e _ _ _ _ _ _ _ _ _ ihl ihr =>
    obtain ⟨hflat, ht⟩ := ihl
    obtain ⟨hflat', hu⟩ := ihr
    simp only [forall_mem_singleton, operates_temp] at ht hu
    have htree : (address.contents.append e.contents).Within (Stmt.move (.mem address) e).contents :=
      ⟨subset_cons_self .., List.Subset.refl _, List.Subset.refl _⟩
    refine ⟨((hflat.append hflat').mono htree).extend (Nat.le_refl _) (by simp [Stmt.Canonical]) ?_
      (by simp [Stmt.names, Expr.names]) (by simp [Stmt.gotos]) (by simp) (.single (by simp)), forall_mem_nil _⟩
    exact forall_mem_singleton.mpr (hflat.known_both hflat' ht hu)
  | @branch test yes no _ _ _ _ _ ih =>
    obtain ⟨hflat, ht⟩ := ih
    simp only [forall_mem_singleton, operates_temp] at ht
    have htree : test.contents.Within (Stmt.branch test yes no).contents :=
      ⟨subset_cons_self .., List.Subset.refl _, List.Subset.refl _⟩
    exact ⟨(hflat.mono htree).branch ht mem_cons_self rfl, forall_mem_nil _⟩
  | jump | label =>
    exact ⟨(Flat.nil _).extend (Nat.le_refl _) (by simp [Stmt.Canonical]) (by simp [Stmt.temps])
      (by simp [Stmt.names]) (by simp [Stmt.gotos, Part.contents, Stmt.contents, Stmt.stmts]) (by simp)
      (.single (by simp)), forall_mem_nil _⟩
  | @eval e _ _ _ _ _ ih =>
    obtain ⟨hflat, hf⟩ := ih
    have htree : e.contents.Within (Stmt.eval e).contents :=
      ⟨subset_cons_self .., List.Subset.refl _, List.Subset.refl _⟩
    exact ⟨(hflat.mono htree).move ((hf _ mem_cons_self).mono htree (Nat.le_refl _) (Nat.le_refl _))
      (Nat.le_succ _) (.inr ⟨rfl, Nat.lt_succ_self _⟩), forall_mem_nil _⟩
  | block _ ih =>
    exact ⟨ih.1.mono ⟨subset_cons_self .., List.Subset.refl _, List.Subset.refl _⟩, forall_mem_nil _⟩
  | stmts _ _ ihl ihr => exact ⟨ihl.1.append ihr.1, forall_mem_nil _⟩

theorem Expr.flat (e : Expr) {s s' : Supply} {c : List Stmt} {f : Expr} (h : Gives e.flatten s (c, f) s') :
    FlatExpr e s s' c f :=
  ⟨(e.flattens h).flat.2 f mem_cons_self, (e.flattens h).flat.1⟩

theorem Stmt.flat (st : Stmt) (s : Supply) (c : List Stmt) (s' : Supply) (h : Gives st.flatten s c s') :
    Flat st.contents s s' c :=
  (st.flattens h).flat.1

end MmixCompiler.Ir
