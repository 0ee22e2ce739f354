import MmixCompiler.Proofs.Fresh
import MmixCompiler.Proofs.Ir.Machine
import Mathlib.Data.List.Nodup
import Mathlib.Data.List.Perm.Basic

/-! Trees of the shape that code generation makes: every move goes to memory, and every jump stands
in a block and goes to a label of that block. Flattening such a tree succeeds, and the labels of its
code are those of the tree and the fresh ones that it took, each once. -/

namespace MmixCompiler.Ir

open Fresh List

mutual

/-- Every move goes to memory, and jumps stay within their blocks. -/
def Expr.Structured : Expr → Prop
  | .const _ | .name _ | .temp _ => True
  | .mem address => address.Structured
  | .binop _ lhs rhs => lhs.Structured ∧ rhs.Structured
  | .unop _ operand => operand.Structured
  | .call _ args => Expr.StructuredAll args
  | .after stmt value => stmt.Structured [] ∧ value.Structured

def Expr.StructuredAll : List Expr → Prop
  | [] => True
  | e :: es => e.Structured ∧ Expr.StructuredAll es

/-- The same for a statement of a block with the given labels. -/
def Stmt.Structured (targets : List Label) : Stmt → Prop
  | .move (.mem address) src => address.Structured ∧ src.Structured
  | .move _ _ => False
  | .branch test yes no => test.Structured ∧ yes ∈ targets ∧ no ∈ targets
  | .jump l => l ∈ targets
  | .label _ => True
  | .eval value => value.Structured
  | .block stmts => Stmt.StructuredAll (labelsOf stmts) stmts

def Stmt.StructuredAll (targets : List Label) : List Stmt → Prop
  | [] => True
  | s :: ss => s.Structured targets ∧ Stmt.StructuredAll targets ss

end

mutual

/-- The labels that stand anywhere in a tree. -/
def Expr.labels : Expr → List Label
  | .const _ | .name _ | .temp _ => []
  | .mem address => address.labels
  | .binop _ lhs rhs => lhs.labels ++ rhs.labels
  | .unop _ operand => operand.labels
  | .call _ args => Expr.labelsAll args
  | .after stmt value => stmt.labels ++ value.labels

def Expr.labelsAll : List Expr → List Label
  | [] => []
  | e :: es => e.labels ++ Expr.labelsAll es

def Stmt.labels : Stmt → List Label
  | .move (.temp _) src => src.labels
  | .move (.mem address) src => address.labels ++ src.labels
  | .move dst src => dst.labels ++ src.labels
  | .branch test _ _ => test.labels
  | .jump _ => []
  | .label l => [l]
  | .eval value => value.labels
  | .block stmts => Stmt.labelsAll stmts

def Stmt.labelsAll : List Stmt → List Label
  | [] => []
  | s :: ss => s.labels ++ Stmt.labelsAll ss

end

mutual

/-- The temporaries of a tree, read or written. -/
def Expr.temps : Expr → List Temp
  | .const _ | .name _ => []
  | .temp t => [t]
  | .mem address => address.temps
  | .binop _ lhs rhs => lhs.temps ++ rhs.temps
  | .unop _ operand => operand.temps
  | .call _ args => Expr.tempsAll args
  | .after stmt value => stmt.temps ++ value.temps

def Expr.tempsAll : List Expr → List Temp
  | [] => []
  | e :: es => e.temps ++ Expr.tempsAll es

def Stmt.temps : Stmt → List Temp
  | .move dst src => dst.temps ++ src.temps
  | .branch test _ _ => test.temps
  | .jump _ | .label _ => []
  | .eval value => value.temps
  | .block stmts => Stmt.tempsAll stmts

def Stmt.tempsAll : List Stmt → List Temp
  | [] => []
  | s :: ss => s.temps ++ Stmt.tempsAll ss

end

mutual

def Expr.stmts : Expr → List Stmt
  | .const _ | .name _ | .temp _ => []
  | .mem address => address.stmts
  | .binop _ lhs rhs => lhs.stmts ++ rhs.stmts
  | .unop _ operand => operand.stmts
  | .call _ args => Expr.stmtsAll args
  | .after stmt value => stmt.stmts ++ value.stmts

def Expr.stmtsAll : List Expr → List Stmt
  | [] => []
  | e :: es => e.stmts ++ Expr.stmtsAll es

def Stmt.stmts : Stmt → List Stmt
  | .move dst src => .move dst src :: (dst.stmts ++ src.stmts)
  | .branch test yes no => .branch test yes no :: test.stmts
  | .jump l => [.jump l]
  | .label l => [.label l]
  | .eval value => .eval value :: value.stmts
  | .block stmts => .block stmts :: Stmt.stmtsAll stmts

def Stmt.stmtsAll : List Stmt → List Stmt
  | [] => []
  | s :: ss => s.stmts ++ Stmt.stmtsAll ss

end

/-- The labels that a statement by itself goes to. -/
def Stmt.gotos : Stmt → List Label
  | .branch _ yes no => [yes, no]
  | .jump l => [l]
  | _ => []

theorem labelsOf_subset (ss : List Stmt) : labelsOf ss ⊆ Stmt.labelsAll ss := by
  intro l hl
  obtain ⟨t, ht, htl⟩ := mem_filterMap.mp hl
  induction ss with
  | nil => simp at ht
  | cons s ss ih =>
    simp only [Stmt.labelsAll, mem_append]
    rcases mem_cons.mp ht with rfl | ht
    · cases t <;> simp_all [Stmt.label?, Stmt.labels]
    · exact .inr (ih (mem_filterMap.mpr ⟨t, ht, htl⟩) ht)

theorem labelsOf_append (a b : List Stmt) : labelsOf (a ++ b) = labelsOf a ++ labelsOf b := filterMap_append

/-- The fresh labels from one number up to another. -/
def freshLabels (first last : Nat) : List Label := (List.range' first (last - first)).map .fresh

theorem freshLabels_append {a b c : Nat} (hab : a ≤ b) (hbc : b ≤ c) :
    freshLabels a b ++ freshLabels b c = freshLabels a c := by
  rw [freshLabels, freshLabels, ← map_append, freshLabels,
    show c - a = (b - a) + (c - b) by omega, ← range'_append_1, show a + (b - a) = b by omega]

theorem nodup_freshLabels (a b : Nat) : (freshLabels a b).Nodup :=
  List.Nodup.map (fun _ _ h => by cases h; rfl) (nodup_range' 1)

/-- Code made from a tree with labels `ls` out of a supply. -/
structure Laid (s s' : Supply) (ls : List Label) (code : List Stmt) : Prop where
  temps : s.temps ≤ s'.temps
  numbers : s.labels ≤ s'.labels
  labels : (labelsOf code).Perm (ls ++ freshLabels s.labels s'.labels)

namespace Laid

variable {s s₁ s₂ : Supply} {ls ks : List Label} {a b : List Stmt}

theorem nil (s : Supply) : Laid s s [] [] := ⟨Nat.le_refl _, Nat.le_refl _, by simp [labelsOf, freshLabels]⟩

theorem append (ha : Laid s s₁ ls a) (hb : Laid s₁ s₂ ks b) : Laid s s₂ (ls ++ ks) (a ++ b) := by
  refine ⟨Nat.le_trans ha.temps hb.temps, Nat.le_trans ha.numbers hb.numbers, ?_⟩
  rw [labelsOf_append, ← freshLabels_append ha.numbers hb.numbers]
  refine (ha.labels.append hb.labels).trans ?_
  simp only [append_assoc]
  exact List.Perm.append_left _ (perm_append_comm_assoc ..)

/-- A statement without a label at the end, and temporaries taken for it. -/
theorem snoc (ha : Laid s s₁ ls a) {t : Stmt} (ht : t.label? = none) (n : Nat) :
    Laid s ⟨s₁.temps + n, s₁.labels⟩ ls (a ++ [t]) := by
  refine ⟨Nat.le_add_right_of_le ha.temps, ha.numbers, ?_⟩
  rw [labelsOf_append]
  simpa [labelsOf, ht] using ha.labels

theorem nodup (h : Laid s s₁ ls a) (hls : ls.Nodup) (hs : ∀ n, .fresh n ∈ ls → n < s.labels) : (labelsOf a).Nodup := by
  refine h.labels.nodup_iff.mpr (hls.append (nodup_freshLabels ..) ?_)
  intro l hl hl'
  obtain ⟨n, hn, rfl⟩ := mem_map.mp hl'
  have := hs n hl
  have := (mem_range'_1.mp hn).1
  omega

end Laid

theorem gives_intoTemp {e : Expr} {s s' : Supply} {c : List Stmt} {t : Temp} :
    Gives (intoTemp e e.flatten) s (c, t) s' ↔
      (e = .temp t ∧ c = [] ∧ s' = s) ∨ ((∀ t, e ≠ .temp t) ∧ ∃ d f s₁, Gives e.flatten s (d, f) s₁ ∧
        c = d ++ [.move (.temp t) f] ∧ t = s₁.temps ∧ s' = ⟨s₁.temps + 1, s₁.labels⟩) := by
  cases e with
  | temp u =>
    simp only [intoTemp, gives_pure, Prod.mk.injEq, Expr.temp.injEq]
    constructor
    · rintro ⟨⟨rfl, rfl⟩, rfl⟩
      exact .inl ⟨rfl, rfl, rfl⟩
    · rintro (⟨rfl, rfl, rfl⟩ | ⟨h, -⟩)
      · exact ⟨⟨rfl, rfl⟩, rfl⟩
      · exact absurd rfl (h u)
  | _ =>
    simp only [intoTemp, gives_bind, gives_temp, gives_pure, Prod.mk.injEq]
    constructor
    · rintro ⟨⟨d, f⟩, s₁, h, _, _, ⟨rfl, rfl⟩, ⟨rfl, rfl⟩, rfl⟩
      exact .inr ⟨by simp, d, f, s₁, h, rfl, rfl, rfl⟩
    · rintro (⟨h, -⟩ | ⟨-, d, f, s₁, h, rfl, rfl, rfl⟩)
      · cases h
      · exact ⟨(d, f), s₁, h, _, _, ⟨rfl, rfl⟩, ⟨rfl, rfl⟩, rfl⟩

/-- What flattening goes through: values, operands that come into temporaries, and statements. -/
inductive Part where
  | value (e : Expr)
  | operand (e : Expr)
  | operands (es : List Expr)
  | stmt (st : Stmt)
  | stmts (ss : List Stmt)

/-- The code of a part of a tree out of a supply, and the operations that then give its values. -/
inductive Flattens : Part → Supply → List Stmt → List Expr → Supply → Prop
  | const (v s) : Flattens (.value (.const v)) s [] [.const v] s
  | name (l s) : Flattens (.value (.name l)) s [] [.name l] s
  | temp (t s) : Flattens (.value (.temp t)) s [] [.temp t] s
  | mem {e s c t s'} : Flattens (.operand e) s c [.temp t] s' → Flattens (.value (.mem e)) s c [.mem (.temp t)] s'
  | unop {op e s c t s'} : Flattens (.operand e) s c [.temp t] s' →
      Flattens (.value (.unop op e)) s c [.unop op (.temp t)] s'
  | binop {op lhs rhs s c t s₁ d u s'} : Flattens (.operand lhs) s c [.temp t] s₁ →
      Flattens (.operand rhs) s₁ d [.temp u] s' →
      Flattens (.value (.binop op lhs rhs)) s (c ++ d) [.binop op (.temp t) (.temp u)] s'
  | call {l args s c s'} {ts : List Temp} : Flattens (.operands args) s c (ts.map .temp) s' →
      Flattens (.value (.call l args)) s c [.call l (ts.map .temp)] s'
  | after {st e s c s₁ d f s'} : Flattens (.stmt st) s c [] s₁ → Flattens (.value e) s₁ d [f] s' →
      Flattens (.value (.after st e)) s (c ++ d) [f] s'
  | held (t s) : Flattens (.operand (.temp t)) s [] [.temp t] s
  | moved {e s c f s₁} : Flattens (.value e) s c [f] s₁ →
      Flattens (.operand e) s (c ++ [.move (.temp s₁.temps) f]) [.temp s₁.temps] ⟨s₁.temps + 1, s₁.labels⟩
  | noOperands (s) : Flattens (.operands []) s [] [] s
  | operands {e es s c t s₁ d s'} {ts : List Temp} : Flattens (.operand e) s c [.temp t] s₁ →
      Flattens (.operands es) s₁ d (ts.map .temp) s' →
      Flattens (.operands (e :: es)) s (c ++ d) (.temp t :: ts.map .temp) s'
  | assign {t e s c f s'} : Flattens (.value e) s c [f] s' →
      Flattens (.stmt (.move (.temp t) e)) s (c ++ [.move (.temp t) f]) [] s'
  | store {address e s c t s₁ d u s'} : Flattens (.operand address) s c [.temp t] s₁ →
      Flattens (.operand e) s₁ d [.temp u] s' →
      Flattens (.stmt (.move (.mem address) e)) s (c ++ d ++ [.move (.mem (.temp t)) (.temp u)]) [] s'
  | branch {test yes no s c t s₁} : Flattens (.operand test) s c [.temp t] s₁ →
      Flattens (.stmt (.branch test yes no)) s
        (c ++ [.branch (.temp t) yes (.fresh s₁.labels), .label (.fresh s₁.labels), .jump no]) []
        ⟨s₁.temps, s₁.labels + 1⟩
  | jump (l s) : Flattens (.stmt (.jump l)) s [.jump l] [] s
  | label (l s) : Flattens (.stmt (.label l)) s [.label l] [] s
  | eval {e s c f s₁} : Flattens (.value e) s c [f] s₁ →
      Flattens (.stmt (.eval e)) s (c ++ [.move (.temp s₁.temps) f]) [] ⟨s₁.temps + 1, s₁.labels⟩
  | block {ss s c s'} : Flattens (.stmts ss) s c [] s' → Flattens (.stmt (.block ss)) s c [] s'
  | noStmts (s) : Flattens (.stmts []) s [] [] s
  | stmts {st ss s c s₁ d s'} : Flattens (.stmt st) s c [] s₁ → Flattens (.stmts ss) s₁ d [] s' →
      Flattens (.stmts (st :: ss)) s (c ++ d) [] s'

theorem flattens_intoTemp {e : Expr} {s s' : Supply} {c : List Stmt} {t : Temp}
    (he : ∀ {c f s'}, Gives e.flatten s (c, f) s' → Flattens (.value e) s c [f] s')
    (h : Gives (intoTemp e e.flatten) s (c, t) s') : Flattens (.operand e) s c [.temp t] s' := by
  rcases gives_intoTemp.mp h with ⟨rfl, rfl, rfl⟩ | ⟨-, d, f, s₁, hd, rfl, rfl, rfl⟩
  · exact .held t _
  · exact .moved (he hd)

mutual

theorem Expr.flattens (e : Expr) {s s' : Supply} {c : List Stmt} {f : Expr} (h : Gives e.flatten s (c, f) s') :
    Flattens (.value e) s c [f] s' := by
  cases e with
  | const | name | temp =>
    simp only [Expr.flatten, gives_pure, Prod.mk.injEq] at h
    obtain ⟨⟨rfl, rfl⟩, rfl⟩ := h
    constructor
  | mem e | unop _ e =>
    simp only [Expr.flatten, gives_bind, gives_pure, Prod.mk.injEq] at h
    obtain ⟨⟨c, t⟩, s₁, hc, ⟨rfl, rfl⟩, rfl⟩ := h
    constructor
    exact flattens_intoTemp e.flattens hc
  | binop op lhs rhs =>
    simp only [Expr.flatten, gives_bind, gives_pure, Prod.mk.injEq] at h
    obtain ⟨⟨c, t⟩, s₁, hc, ⟨d, u⟩, s₂, hd, ⟨rfl, rfl⟩, rfl⟩ := h
    exact .binop (flattens_intoTemp lhs.flattens hc) (flattens_intoTemp rhs.flattens hd)
  | call l args =>
    simp only [Expr.flatten, gives_bind, gives_pure, Prod.mk.injEq] at h
    obtain ⟨⟨c, ts⟩, s₁, hc, ⟨rfl, rfl⟩, rfl⟩ := h
    exact .call (Expr.flattensArgs args hc)
  | after st e =>
    simp only [Expr.flatten, gives_bind, gives_pure, Prod.mk.injEq] at h
    obtain ⟨c, s₁, hc, ⟨d, f⟩, s₂, hd, ⟨rfl, rfl⟩, rfl⟩ := h
    exact .after (st.flattens hc) (e.flattens hd)
termination_by structural e

theorem Expr.flattensArgs (es : List Expr) {s s' : Supply} {c : List Stmt} {ts : List Temp}
    (h : Gives (Expr.flattenArgs es) s (c, ts) s') : Flattens (.operands es) s c (ts.map .temp) s' := by
  cases es with
  | nil =>
    simp only [Expr.flattenArgs, gives_pure, Prod.mk.injEq] at h
    obtain ⟨⟨rfl, rfl⟩, rfl⟩ := h
    exact .noOperands _
  | cons e es =>
    simp only [Expr.flattenArgs, gives_bind, gives_pure, Prod.mk.injEq] at h
    obtain ⟨⟨c, t⟩, s₁, hc, ⟨d, ts⟩, s₂, hd, ⟨rfl, rfl⟩, rfl⟩ := h
    exact .operands (flattens_intoTemp e.flattens hc) (Expr.flattensArgs es hd)
termination_by structural es

theorem Stmt.flattens (st : Stmt) {s s' : Supply} {c : List Stmt} (h : Gives st.flatten s c s') :
    Flattens (.stmt st) s c [] s' := by
  cases st with
  | move dst e =>
    cases dst with
    | temp t =>
      simp only [Stmt.flatten, gives_bind, gives_pure] at h
      obtain ⟨⟨c, f⟩, s₁, hc, rfl, rfl⟩ := h
      exact .assign (e.flattens hc)
    | mem address =>
      simp only [Stmt.flatten, gives_bind, gives_pure] at h
      obtain ⟨⟨c, t⟩, s₁, hc, ⟨d, u⟩, s₂, hd, rfl, rfl⟩ := h
      exact .store (flattens_intoTemp address.flattens hc) (flattens_intoTemp e.flattens hd)
    | _ => cases h
  | branch test yes no =>
    simp only [Stmt.flatten, gives_bind, gives_label, gives_pure] at h
    obtain ⟨⟨c, t⟩, s₁, hc, _, _, ⟨rfl, rfl⟩, rfl, rfl⟩ := h
    exact .branch (flattens_intoTemp test.flattens hc)
  | jump | label =>
    obtain ⟨rfl, rfl⟩ := gives_pure.mp h
    constructor
  | eval e =>
    simp only [Stmt.flatten, gives_bind, gives_temp, gives_pure] at h
    obtain ⟨⟨c, f⟩, s₁, hc, _, _, ⟨rfl, rfl⟩, rfl, rfl⟩ := h
    exact .eval (e.flattens hc)
  | block ss => exact .block (Stmt.flattensAll ss h)
termination_by structural st

theorem Stmt.flattensAll (ss : List Stmt) {s s' : Supply} {c : List Stmt} (h : Gives (Stmt.flattenAll ss) s c s') :
    Flattens (.stmts ss) s c [] s' := by
  cases ss with
  | nil =>
    obtain ⟨rfl, rfl⟩ := gives_pure.mp h
    exact .noStmts _
  | cons st ss =>
    simp only [Stmt.flattenAll, gives_bind, gives_pure] at h
    obtain ⟨c, s₁, hc, d, s₂, hd, rfl, rfl⟩ := h
    exact .stmts (st.flattens hc) (Stmt.flattensAll ss hd)
termination_by structural ss

end

def Part.labels : Part → List Label
  | .value e | .operand e => e.labels
  | .operands es => Expr.labelsAll es
  | .stmt st => st.labels
  | .stmts ss => Stmt.labelsAll ss

def Part.temps : Part → List Temp
  | .value e | .operand e => e.temps
  | .operands es => Expr.tempsAll es
  | .stmt st => st.temps
  | .stmts ss => Stmt.tempsAll ss

/-- Structured parts of a tree; statements stand in a block with the given labels. -/
def Part.Structured (targets : List Label) : Part → Prop
  | .value e | .operand e => e.Structured
  | .operands es => Expr.StructuredAll es
  | .stmt st => st.Structured targets
  | .stmts ss => Stmt.StructuredAll targets ss

theorem Flattens.laid {x : Part} {s s' : Supply} {c : List Stmt} {r : List Expr} (h : Flattens x s c r s') :
    Laid s s' x.labels c := by
  induction h with
  | const | name | temp | held | noOperands | noStmts => exact .nil _
  | mem _ ih | unop _ ih | call _ ih | block _ ih => exact ih
  | binop _ _ ihl ihr | after _ _ ihl ihr | operands _ _ ihl ihr | stmts _ _ ihl ihr => exact ihl.append ihr
  | moved _ ih | eval _ ih => exact ih.snoc rfl 1
  | assign _ ih => exact ih.snoc rfl 0
  | store _ _ ihl ihr => exact (ihl.append ihr).snoc rfl 0
  | @branch test yes no s c t s₁ _ ih =>
    have next : Laid s₁ ⟨s₁.temps, s₁.labels + 1⟩ []
        [.branch (.temp t) yes (.fresh s₁.labels), .label (.fresh s₁.labels), .jump no] :=
      ⟨Nat.le_refl _, Nat.le_succ _, by simp [labelsOf, filterMap_cons, Stmt.label?, freshLabels]⟩
    simpa [Part.labels, Stmt.labels] using ih.append next
  | jump l s => exact (Laid.nil s).snoc rfl 0
  | label l s =>
    exact ⟨Nat.le_refl _, Nat.le_refl _, by simp [labelsOf, Stmt.label?, freshLabels, Part.labels, Stmt.labels]⟩

/-- Going only to the given labels, and moving nothing but to memory. -/
def Stmt.Stays (ls : List Label) (st : Stmt) : Prop :=
  st.gotos ⊆ ls ∧ ∀ dst src, st = .move dst src → ∃ address, dst = .mem address

theorem Stmt.Stays.mono {ls ks : List Label} {st : Stmt} (h : st.Stays ls) (hls : ls ⊆ ks) : st.Stays ks :=
  ⟨List.Subset.trans h.1 hls, h.2⟩

mutual

theorem Expr.Structured.stays (e : Expr) (he : e.Structured) : ∀ u ∈ e.stmts, u.Stays e.labels := by
  intro u hu
  cases e with
  | const | name | temp => cases hu
  | mem e | unop _ e => exact Expr.Structured.stays e he u hu
  | binop _ lhs rhs =>
    rcases mem_append.mp hu with hu | hu
    · exact (Expr.Structured.stays lhs he.1 u hu).mono (subset_append_left ..)
    · exact (Expr.Structured.stays rhs he.2 u hu).mono (subset_append_right ..)
  | call _ args => exact Expr.StructuredAll.stays args he u hu
  | after st e =>
    rcases mem_append.mp hu with hu | hu
    · exact (Stmt.Structured.stays st [] he.1 u hu).mono (by simp [Expr.labels])
    · exact (Expr.Structured.stays e he.2 u hu).mono (subset_append_right ..)
termination_by structural e

theorem Expr.StructuredAll.stays (es : List Expr) (hes : Expr.StructuredAll es) :
    ∀ u ∈ Expr.stmtsAll es, u.Stays (Expr.labelsAll es) := by
  intro u hu
  cases es with
  | nil => cases hu
  | cons e es =>
    rcases mem_append.mp hu with hu | hu
    · exact (Expr.Structured.stays e hes.1 u hu).mono (subset_append_left ..)
    · exact (Expr.StructuredAll.stays es hes.2 u hu).mono (subset_append_right ..)
termination_by structural es

theorem Stmt.Structured.stays (st : Stmt) (targets : List Label) (hst : st.Structured targets) :
    ∀ u ∈ st.stmts, u.Stays (targets ++ st.labels) := by
  intro u hu
  cases st with
  | move dst src =>
    cases dst with
    | mem a =>
      rcases mem_cons.mp hu with rfl | hu
      · simp [Stmt.Stays, Stmt.gotos]
      · rcases mem_append.mp hu with hu | hu
        · exact (Expr.Structured.stays a hst.1 u hu).mono (by simp [Stmt.labels])
        · exact (Expr.Structured.stays src hst.2 u hu).mono (by simp [Stmt.labels])
    | _ => exact hst.elim
  | branch test yes no =>
    rcases mem_cons.mp hu with rfl | hu
    · simp [Stmt.Stays, Stmt.gotos, hst.2.1, hst.2.2]
    · exact (Expr.Structured.stays test hst.1 u hu).mono (subset_append_right ..)
  | jump l =>
    obtain rfl := mem_singleton.mp hu
    simpa [Stmt.Stays, Stmt.gotos, Stmt.labels, Stmt.Structured] using hst
  | label l =>
    obtain rfl := mem_singleton.mp hu
    simp [Stmt.Stays, Stmt.gotos]
  | eval e =>
    rcases mem_cons.mp hu with rfl | hu
    · simp [Stmt.Stays, Stmt.gotos]
    · exact (Expr.Structured.stays e hst u hu).mono (subset_append_right ..)
  | block ss =>
    rcases mem_cons.mp hu with rfl | hu
    · simp [Stmt.Stays, Stmt.gotos]
    · refine (Stmt.StructuredAll.stays ss _ hst u hu).mono ?_
      exact append_subset.mpr ⟨List.Subset.trans (labelsOf_subset ss) (subset_append_right ..),
        subset_append_right ..⟩
termination_by structural st

theorem Stmt.StructuredAll.stays (ss : List Stmt) (targets : List Label) (hss : Stmt.StructuredAll targets ss) :
    ∀ u ∈ Stmt.stmtsAll ss, u.Stays (targets ++ Stmt.labelsAll ss) := by
  intro u hu
  cases ss with
  | nil => cases hu
  | cons st ss =>
    rcases mem_append.mp hu with hu | hu
    · exact (Stmt.Structured.stays st targets hss.1 u hu).mono (by simp [Stmt.labelsAll])
    · exact (Stmt.StructuredAll.stays ss targets hss.2 u hu).mono (by simp [Stmt.labelsAll])
termination_by structural ss

end

def Expr.Place (e : Expr) : Prop := (∃ t, e = .temp t) ∨ ∃ address, e = .mem address

/-- All moves go to places. -/
def Placed (ss : List Stmt) : Prop := ∀ dst src, .move dst src ∈ ss → dst.Place

/-- A fault about a move that does not. -/
def Misplaced (ss : List Stmt) (e : CompileError) : Prop :=
  ∃ dst src, .move dst src ∈ ss ∧ ¬ dst.Place ∧ e = .internal (.moveInto dst)

theorem Misplaced.mono {ss ss' : List Stmt} {e : CompileError} (h : Misplaced ss e) (hss : ss ⊆ ss') :
    Misplaced ss' e := by
  obtain ⟨dst, src, hmem, hfault⟩ := h
  exact ⟨dst, src, hss hmem, hfault⟩

/-- A computation finds out whether all moves go to places. -/
def Decides {α : Type} (ss : List Stmt) (s : Supply) (x : Fresh α) : Prop :=
  Meets x s (fun _ _ => Placed ss) (Misplaced ss)

namespace Decides

variable {α β : Type} {ss ss' : List Stmt} {s : Supply} {x : Fresh α} {f : α → Fresh β}

theorem pure (a : α) : Decides [] s (Pure.pure a : Fresh α) := by simp [Decides, Placed]

theorem bind (hx : Decides ss s x) (hf : ∀ a s', Decides ss' s' (f a)) : Decides (ss ++ ss') s (x >>= f) := by
  rw [Decides, meets_bind]
  refine hx.imp (fun a s' hplaced => (hf a s').imp (fun _ _ hplaced' => ?_) fun _ h => ?_) fun _ h => ?_
  · exact fun dst src hmem => (mem_append.mp hmem).elim (hplaced dst src) (hplaced' dst src)
  · exact h.mono (subset_append_right ..)
  · exact h.mono (subset_append_left ..)

theorem andThen (hx : Decides ss s x) (hf : ∀ a s', Decides [] s' (f a)) : Decides ss s (x >>= f) := by
  simpa using hx.bind hf

theorem of_error (h : Decides ss s x) {e : CompileError} {s' : Supply} (hx : outcome x s = (.error e, s')) :
    Misplaced ss e := by
  rwa [Decides, Meets, hx] at h

theorem temp : Decides [] s temp := by simp [Decides, Fresh.temp, Placed]

theorem label : Decides [] s label := by simp [Decides, Fresh.label, Placed]

theorem cons (hx : Decides ss s x) {u : Stmt} (hu : ∀ dst src, u = .move dst src → dst.Place) :
    Decides (u :: ss) s x := by
  refine hx.imp (fun _ _ hplaced dst src hmem => ?_) fun _ h => h.mono (subset_cons_self ..)
  rcases mem_cons.mp hmem with heq | hmem
  · exact hu dst src heq.symm
  · exact hplaced dst src hmem

theorem intoTemp {e : Expr} (he : Decides e.stmts s e.flatten) : Decides e.stmts s (intoTemp e e.flatten) := by
  unfold Ir.intoTemp
  split
  · exact .pure _
  · exact he.andThen fun _ _ => temp.andThen fun _ _ => .pure _

end Decides

mutual

theorem Expr.decides (e : Expr) (s : Supply) : Decides e.stmts s e.flatten := by
  cases e with
  | const | name | temp => exact .pure _
  | mem e | unop _ e => exact (Decides.intoTemp (e.decides s)).andThen fun _ _ => .pure _
  | binop _ lhs rhs =>
    exact (Decides.intoTemp (lhs.decides s)).bind fun _ s₁ =>
      (Decides.intoTemp (rhs.decides s₁)).andThen fun _ _ => .pure _
  | call _ args => exact (Expr.decidesArgs args s).andThen fun _ _ => .pure _
  | after st e => exact (st.decides s).bind fun _ s₁ => (e.decides s₁).andThen fun _ _ => .pure _
termination_by structural e

theorem Expr.decidesArgs (es : List Expr) (s : Supply) : Decides (Expr.stmtsAll es) s (Expr.flattenArgs es) := by
  cases es with
  | nil => exact .pure _
  | cons e es =>
    exact (Decides.intoTemp (e.decides s)).bind fun _ s₁ => (Expr.decidesArgs es s₁).andThen fun _ _ => .pure _
termination_by structural es

theorem Stmt.decides (st : Stmt) (s : Supply) : Decides st.stmts s st.flatten := by
  cases st with
  | move dst src =>
    cases dst with
    | temp t => exact ((src.decides s).andThen fun _ _ => .pure _).cons (by simp [Expr.Place])
    | mem e =>
      refine Decides.cons ?_ (by simp [Expr.Place])
      exact (Decides.intoTemp (e.decides s)).bind fun _ s₁ =>
        (Decides.intoTemp (src.decides s₁)).andThen fun _ _ => .pure _
    | _ => exact ⟨_, src, mem_cons_self, by simp [Expr.Place], rfl⟩
  | branch test yes no =>
    refine Decides.cons ?_ (by simp)
    exact (Decides.intoTemp (test.decides s)).andThen fun _ _ => Decides.label.andThen fun _ _ => .pure _
  | jump | label => exact Decides.cons (.pure _) (by simp)
  | eval e =>
    refine Decides.cons ?_ (by simp)
    exact (e.decides s).andThen fun _ _ => Decides.temp.andThen fun _ _ => .pure _
  | block ss => exact Decides.cons (Stmt.decidesAll ss s) (by simp)
termination_by structural st

theorem Stmt.decidesAll (ss : List Stmt) (s : Supply) : Decides (Stmt.stmtsAll ss) s (Stmt.flattenAll ss) := by
  cases ss with
  | nil => exact .pure _
  | cons st ss => exact (st.decides s).bind fun _ s₁ => (Stmt.decidesAll ss s₁).andThen fun _ _ => .pure _
termination_by structural ss

end

theorem Placed.of_stays {ss : List Stmt} {ls : List Label} (h : ∀ u ∈ ss, u.Stays ls) : Placed ss :=
  fun dst src hmem => .inr ((h _ hmem).2 dst src rfl)

theorem Decides.exists_gives {α : Type} {ss : List Stmt} {s : Supply} {x : Fresh α} (h : Decides ss s x)
    (hss : Placed ss) : ∃ a s', Gives x s a s' := by
  rcases hx : outcome x s with ⟨e | a, s'⟩
  · obtain ⟨dst, src, hmem, hplace, -⟩ := h.of_error hx
    exact absurd (hss dst src hmem) hplace
  · exact ⟨a, s', hx⟩

theorem Expr.exists_flatten (e : Expr) (he : e.Structured) (s : Supply) :
    ∃ c f s', Gives e.flatten s (c, f) s' ∧ Laid s s' e.labels c := by
  obtain ⟨⟨c, f⟩, s', h⟩ := (e.decides s).exists_gives (.of_stays (Expr.Structured.stays e he))
  exact ⟨c, f, s', h, (e.flattens h).laid⟩

end MmixCompiler.Ir
