import MmixCompiler.Proofs.Except
import MmixCompiler.Proofs.Types.Shape

/-! Unfoldings of types. A type unfolds to a tree with a facet at every place: places are paths that go from a type
behind its names to one of its parts. Comparison decides whether two types have the same tree, however they refer to
themselves, and so it is an equivalence. -/

namespace MmixCompiler

inductive Facet where
  | atom (type : AtomType)
  | ptr
  | arr (length : Int)
  | record (arity : Nat)
  /-- A name that has no definition, by its number. -/
  | undefined (type : TypeId)

/-- How many parts there are behind a facet. -/
def Facet.arity : Facet → Nat
  | .atom _ | .undefined _ => 0
  | .ptr | .arr _ => 1
  | .record arity => arity

namespace TypeShape

variable {α β : Type} {R : α → β → Prop}

def facet : TypeShape α → Facet
  | .atom type => .atom type
  | .ptr _ => .ptr
  | .arr length _ => .arr length
  | .record fields => .record fields.length

theorem agrees_iff_facet {x : TypeShape α} {y : TypeShape β} :
    x.Agrees anyNames R y ↔ x.facet = y.facet ∧ List.Forall₂ R x.parts y.parts := by
  constructor
  · intro h
    cases h with
    | atom type => exact ⟨rfl, .nil⟩
    | ptr h => exact ⟨rfl, .cons h .nil⟩
    | arr length h => exact ⟨rfl, .cons h .nil⟩
    | record h =>
      refine ⟨congrArg Facet.record h.length_eq, ?_⟩
      rw [parts, parts, List.forall₂_map_left_iff, List.forall₂_map_right_iff]
      exact h.imp fun _ _ hfg => hfg.2
  · rintro ⟨hfacet, hparts⟩
    cases x <;> cases y <;> simp only [facet, reduceCtorEq, Facet.atom.injEq, Facet.arr.injEq] at hfacet
    · exact hfacet ▸ .atom _
    · exact .ptr (by simpa [parts] using hparts)
    · exact hfacet ▸ .arr _ (by simpa [parts] using hparts)
    · rw [parts, parts, List.forall₂_map_left_iff, List.forall₂_map_right_iff] at hparts
      exact .record (hparts.imp fun _ _ hfg => ⟨trivial, hfg⟩)

def ty : TypeShape TypeId → Ty
  | .atom .int => .int
  | .atom .char => .char
  | .atom .bool => .bool
  | .atom .void => .void
  | .ptr target => .ptr target
  | .arr length element => .arr length element
  | .record fields => .record fields

end TypeShape

theorem Ty.shape?_eq_some {y : Ty} {x : TypeShape TypeId} : y.shape? = some x ↔ y = x.ty := by
  cases x with
  | atom type => cases type <;> cases y <;> simp [Ty.shape?, TypeShape.ty]
  | _ => cases y <;> simp [Ty.shape?, TypeShape.ty]

namespace Registry

variable {r : Registry} {s t u v : TypeId} {R : TypeId → TypeId → Prop}

/-- A type stands for what is behind its names. -/
inductive Denotes (r : Registry) : TypeId → TypeId → Prop where
  | rest {t : TypeId} (h : ∀ name d, r.get t ≠ .named name (some d)) : Denotes r t t
  | named {t d u : TypeId} {name : String} (h : r.get t = .named name (some d)) (hd : Denotes r d u) : Denotes r t u

/-- Two types that are no names have the same form, and their parts are related in order. Names of components do not
matter, and an undefined name has the form of itself only. -/
inductive SameForm (r : Registry) (R : TypeId → TypeId → Prop) : TypeId → TypeId → Prop where
  | int {u v : TypeId} (hu : r.get u = .int) (hv : r.get v = .int) : SameForm r R u v
  | char {u v : TypeId} (hu : r.get u = .char) (hv : r.get v = .char) : SameForm r R u v
  | bool {u v : TypeId} (hu : r.get u = .bool) (hv : r.get v = .bool) : SameForm r R u v
  | void {u v : TypeId} (hu : r.get u = .void) (hv : r.get v = .void) : SameForm r R u v
  | ptr {u v a b : TypeId} (hu : r.get u = .ptr a) (hv : r.get v = .ptr b) (h : R a b) : SameForm r R u v
  | arr {u v a b : TypeId} {length : Int} (hu : r.get u = .arr length a) (hv : r.get v = .arr length b) (h : R a b) :
      SameForm r R u v
  | record {u v : TypeId} {fs gs : List (String × TypeId)} (hu : r.get u = .record fs) (hv : r.get v = .record gs)
      (h : List.Forall₂ (fun f g => R f.2 g.2) fs gs) : SameForm r R u v
  | undefined {u : TypeId} {name : String} (hu : r.get u = .named name none) : SameForm r R u u

/-- Related types have the same form behind their names. -/
def Bisimulation (r : Registry) (R : TypeId → TypeId → Prop) : Prop :=
  ∀ s t, R s t → ∃ u v, r.Denotes s u ∧ r.Denotes t v ∧ r.SameForm R u v

/-- The facet and the parts of a type that is no defined name. -/
def look? (r : Registry) (u : TypeId) : Option (Facet × List TypeId) :=
  match r.get u with
  | .named _ none => some (.undefined u, [])
  | x => x.shape?.map fun x => (x.facet, x.parts)

/-- The unfolding of a type: the facets that are found at the ends of paths. -/
inductive Unfolds (r : Registry) : TypeId → List Nat → Facet → Prop where
  | here {t u : TypeId} {facet : Facet} {parts : List TypeId} (h : r.Denotes t u)
      (hu : r.look? u = some (facet, parts)) : Unfolds r t [] facet
  | part {t u v : TypeId} {facet facet' : Facet} {parts : List TypeId} {k : Nat} {path : List Nat} (h : r.Denotes t u)
      (hu : r.look? u = some (facet', parts)) (hk : parts[k]? = some v) (hv : Unfolds r v path facet) :
      Unfolds r t (k :: path) facet

theorem denotes_follow {n : Nat} (h : r.next? (r.follow n t) = none) : r.Denotes t (r.follow n t) := by
  induction n generalizing t with
  | zero => exact .rest (next?_eq_none.mp h)
  | succ n ih =>
    rw [follow_succ] at h ⊢
    cases hnext : r.next? t with
    | none => exact .rest (next?_eq_none.mp hnext)
    | some d =>
      obtain ⟨name, hget⟩ := next?_eq_some.mp hnext
      rw [hnext] at h
      exact .named hget (ih h)

theorem Denotes.exists_follow (h : r.Denotes t u) : r.next? u = none ∧ ∃ n, r.follow n t = u := by
  induction h with
  | rest h => exact ⟨next?_eq_none.mpr h, 0, rfl⟩
  | named h _ ih =>
    obtain ⟨hrest, n, hn⟩ := ih
    exact ⟨hrest, n + 1, by rw [follow_succ, next?_eq_some.mpr ⟨_, h⟩]; exact hn⟩

theorem Denotes.eq_actual (h : r.Denotes t u) : r.actual t = u := by
  obtain ⟨hrest, n, rfl⟩ := h.exists_follow
  exact actual_of_rest hrest

theorem sameForm_iff_agrees : r.SameForm R u v ↔ (u = v ∧ ∃ name, r.get u = .named name none) ∨
    ∃ x y, (r.get u).shape? = some x ∧ (r.get v).shape? = some y ∧ x.Agrees TypeShape.anyNames R y := by
  constructor
  · intro h
    cases h with
    | int hu hv | char hu hv | bool hu hv | void hu hv =>
      exact .inr ⟨_, _, by rw [hu, Ty.shape?], by rw [hv, Ty.shape?], .atom _⟩
    | ptr hu hv h => exact .inr ⟨_, _, by rw [hu, Ty.shape?], by rw [hv, Ty.shape?], .ptr h⟩
    | arr hu hv h => exact .inr ⟨_, _, by rw [hu, Ty.shape?], by rw [hv, Ty.shape?], .arr _ h⟩
    | record hu hv h =>
      exact .inr ⟨_, _, by rw [hu, Ty.shape?], by rw [hv, Ty.shape?], .record (h.imp fun _ _ hfg => ⟨trivial, hfg⟩)⟩
    | undefined hu => exact .inl ⟨rfl, _, hu⟩
  · rintro (⟨rfl, name, hu⟩ | ⟨x, y, hx, hy, hagrees⟩)
    · exact .undefined hu
    · rw [Ty.shape?_eq_some] at hx hy
      cases hagrees with
      | atom type =>
        cases type with
        | int => exact .int hx hy
        | char => exact .char hx hy
        | bool => exact .bool hx hy
        | void => exact .void hx hy
      | ptr h => exact .ptr hx hy h
      | arr length h => exact .arr hx hy h
      | record h => exact .record hx hy (h.imp fun _ _ hfg => hfg.2)

theorem look?_eq_some {facet : Facet} {parts : List TypeId} : r.look? u = some (facet, parts) ↔
    ((∃ name, r.get u = .named name none) ∧ facet = .undefined u ∧ parts = []) ∨
      ∃ x, (r.get u).shape? = some x ∧ facet = x.facet ∧ parts = x.parts := by
  unfold look?
  split
  · next name hu => simp [hu, Ty.shape?, eq_comm]
  · next hu =>
    have hdefined : ¬ ∃ name, r.get u = .named name none := not_exists.mpr hu
    simp [hdefined, eq_comm]

theorem sameForm_iff : r.SameForm R u v ↔ ∃ facet ps qs, r.look? u = some (facet, ps) ∧ r.look? v = some (facet, qs) ∧
    List.Forall₂ R ps qs := by
  have hapart : ∀ (x : TypeShape TypeId) w, x.facet ≠ .undefined w := fun x w => by cases x <;> simp [TypeShape.facet]
  rw [sameForm_iff_agrees]
  constructor
  · rintro (⟨rfl, hu⟩ | ⟨x, y, hx, hy, hagrees⟩)
    · have hlook := look?_eq_some.mpr (.inl ⟨hu, rfl, rfl⟩)
      exact ⟨_, _, _, hlook, hlook, .nil⟩
    · obtain ⟨hfacet, hparts⟩ := TypeShape.agrees_iff_facet.mp hagrees
      exact ⟨_, _, _, look?_eq_some.mpr (.inr ⟨x, hx, rfl, rfl⟩), look?_eq_some.mpr (.inr ⟨y, hy, hfacet, rfl⟩), hparts⟩
  · rintro ⟨facet, ps, qs, hu, hv, hparts⟩
    rcases look?_eq_some.mp hu with ⟨hname, rfl, rfl⟩ | ⟨x, hx, rfl, rfl⟩ <;>
      rcases look?_eq_some.mp hv with ⟨hname', heq, rfl⟩ | ⟨y, hy, heq, rfl⟩
    · exact .inl ⟨Facet.undefined.inj heq, hname⟩
    · exact absurd heq.symm (hapart y u)
    · exact absurd heq (hapart x v)
    · exact .inr ⟨x, y, hx, hy, TypeShape.agrees_iff_facet.mpr ⟨heq, hparts⟩⟩

theorem length_of_look? {facet : Facet} {parts : List TypeId} (h : r.look? u = some (facet, parts)) :
    parts.length = facet.arity := by
  rcases look?_eq_some.mp h with ⟨-, rfl, rfl⟩ | ⟨x, -, rfl, rfl⟩
  · rfl
  · cases x <;> simp [TypeShape.parts, TypeShape.facet, Facet.arity]

theorem Denotes.exists_look? (h : r.Denotes t u) : ∃ facet parts, r.look? u = some (facet, parts) := by
  have hrest := next?_eq_none.mp h.exists_follow.1
  unfold look?
  cases hu : r.get u with
  | named name d =>
    cases d with
    | none => exact ⟨_, _, rfl⟩
    | some d => exact absurd hu (hrest name d)
  | _ => exact ⟨_, _, rfl⟩

theorem Denotes.unique (hu : r.Denotes t u) (hv : r.Denotes t v) : u = v := hu.eq_actual.symm.trans hv.eq_actual

section
variable {facet facet' : Facet} {parts : List TypeId} {path : List Nat} (h : r.Denotes t u)
  (hu : r.look? u = some (facet, parts))
include h hu

theorem unfolds_nil_iff : r.Unfolds t [] facet' ↔ facet' = facet := by
  refine ⟨fun hunfolds => ?_, fun heq => heq ▸ .here h hu⟩
  cases hunfolds with
  | here h' hu' =>
    obtain rfl := h.unique h'
    rw [hu] at hu'
    exact (congrArg Prod.fst (Option.some.inj hu')).symm

theorem unfolds_cons_iff {k : Nat} (hk : parts[k]? = some v) :
    r.Unfolds t (k :: path) facet' ↔ r.Unfolds v path facet' := by
  refine ⟨fun hunfolds => ?_, .part h hu hk⟩
  cases hunfolds with
  | part h' hu' hk' hv =>
    obtain rfl := h.unique h'
    rw [hu] at hu'
    cases hu'
    rw [hk] at hk'
    cases hk'
    exact hv

end

namespace Bisimulation

theorem flip (h : r.Bisimulation R) : r.Bisimulation fun s t => R t s := by
  intro s t hts
  obtain ⟨u, v, hu, hv, hform⟩ := h t s hts
  obtain ⟨facet, ps, qs, hps, hqs, hparts⟩ := sameForm_iff.mp hform
  exact ⟨v, u, hv, hu, sameForm_iff.mpr ⟨facet, qs, ps, hqs, hps, hparts.flip⟩⟩

theorem unfolds (h : r.Bisimulation R) (hst : R s t) {path : List Nat} {facet : Facet} (hs : r.Unfolds s path facet) :
    r.Unfolds t path facet := by
  induction hs generalizing t with
  | here hs hlook =>
    obtain ⟨u, v, hu, hv, hform⟩ := h _ t hst
    obtain ⟨facet', ps, qs, hps, hqs, -⟩ := sameForm_iff.mp hform
    obtain rfl := hs.unique hu
    rw [hps] at hlook
    cases hlook
    exact .here hv hqs
  | part hs hlook hk _ ih =>
    obtain ⟨u, v, hu, hv, hform⟩ := h _ t hst
    obtain ⟨facet', ps, qs, hps, hqs, hparts⟩ := sameForm_iff.mp hform
    obtain rfl := hs.unique hu
    rw [hps] at hlook
    cases hlook
    obtain ⟨w, hw, hrelated⟩ := exists_getElem?_of_forall₂ hparts hk
    exact .part hv hqs hw (ih hrelated)

theorem unfolds_eq (h : r.Bisimulation R) (hst : R s t) : r.Unfolds s = r.Unfolds t := by
  funext path facet
  exact propext ⟨h.unfolds hst, h.flip.unfolds hst⟩

end Bisimulation

section
variable (hcircle : r.circle? = none)
include hcircle

theorem denotes_actual (t : TypeId) : r.Denotes t (r.actual t) := denotes_follow (rest_of_circle? hcircle t)

theorem bisimulation_unfolds : r.Bisimulation fun s t => r.Unfolds s = r.Unfolds t := by
  intro s t hst
  have hs := denotes_actual hcircle s
  have ht := denotes_actual hcircle t
  obtain ⟨facet, ps, hps⟩ := hs.exists_look?
  obtain ⟨facet', qs, hqs⟩ := ht.exists_look?
  obtain rfl : facet = facet' := by
    rw [← unfolds_nil_iff ht hqs, ← hst]
    exact .here hs hps
  refine ⟨_, _, hs, ht, sameForm_iff.mpr ⟨facet, ps, qs, hps, hqs, List.forall₂_iff_get.mpr ⟨?_, fun k hk hk' => ?_⟩⟩⟩
  · rw [length_of_look? hps, length_of_look? hqs]
  · funext path facet'
    rw [List.get_eq_getElem, List.get_eq_getElem, ← unfolds_cons_iff hs hps (List.getElem?_eq_getElem hk),
      ← unfolds_cons_iff ht hqs (List.getElem?_eq_getElem hk'), hst]

theorem unfolds_eq_iff : r.Unfolds s = r.Unfolds t ↔ ∃ R, r.Bisimulation R ∧ R s t :=
  ⟨fun h => ⟨_, bisimulation_unfolds hcircle, h⟩, fun ⟨_, hR, h⟩ => hR.unfolds_eq h⟩

theorem alike_iff_bisimulation : r.Alike s t ↔ ∃ R, r.Bisimulation R ∧ R s t := by
  constructor
  · rintro ⟨R, hR, hst⟩
    -- a consistent relation says nothing about a type and itself
    refine ⟨fun s t => r.actual s = r.actual t ∨ R s t, fun s t h => ?_, .inr hst⟩
    have hs := denotes_actual hcircle s
    refine ⟨_, _, hs, denotes_actual hcircle t, ?_⟩
    obtain heq | ⟨x, y, hx, hy, hagrees⟩ := h.elim .inl (hR s t)
    · obtain ⟨facet, parts, hlook⟩ := hs.exists_look?
      exact sameForm_iff.mpr ⟨facet, parts, parts, hlook, heq ▸ hlook, List.forall₂_same.mpr fun _ _ => .inl rfl⟩
    · exact sameForm_iff_agrees.mpr (.inr ⟨x, y, hx, hy, hagrees.mono fun _ _ => .inr⟩)
  · rintro ⟨R, hR, hst⟩
    refine ⟨R, fun s t h => ?_, hst⟩
    obtain ⟨u, v, hu, hv, hform⟩ := hR s t h
    rw [shape?, shape?, form, form, hu.eq_actual, hv.eq_actual]
    exact (sameForm_iff_agrees.mp hform).imp_left And.left

end

theorem allThreaded_congr {α σ : Type} {test test' : σ → α → Bool × σ} {I : σ → Prop} {as : List α} {s : σ}
    (h : ∀ a ∈ as, ∀ s, I s → test' s a = test s a ∧ ∀ s', test s a = (true, s') → I s') (hs : I s) :
    allThreaded test' s as = allThreaded test s as := by
  induction as generalizing s with
  | nil => rfl
  | cons a as ih =>
    obtain ⟨ha, has⟩ := List.forall_mem_cons.mp h
    obtain ⟨heq, hkeep⟩ := ha s hs
    rw [allThreaded, allThreaded, heq]
    split
    · next s' htest => exact ih has (hkeep s' htest)
    · rfl

/-- More depth than there are pairs left to see changes nothing. -/
theorem matchTo_of_le (hr : r.Closed) {n m : Nat} {seen : List (TypeId × TypeId)} (hs : s < r.size) (ht : t < r.size)
    (hseen : r.Pairs seen) (hn : r.size * r.size < n + seen.length) (hle : n ≤ m) :
    r.matchTo m seen (s, t) = r.matchTo n seen (s, t) := by
  induction n generalizing m seen s t with
  | zero => exact absurd hseen.length_le (by omega)
  | succ n ih =>
    obtain ⟨m, rfl⟩ := Nat.exists_eq_succ_of_ne_zero (by omega : m ≠ 0)
    rw [matchTo_succ, matchTo_succ]
    split
    · rfl
    · next hnew =>
      split
      · next ps hps =>
        have hvalid := hr.pairs? hs ht hps
        refine allThreaded_congr (I := fun seen => r.Pairs seen ∧ r.size * r.size < n + seen.length)
          (fun p hp seen' ⟨hpairs, hlength⟩ => ⟨?_, fun seen'' htest => ?_⟩)
          ⟨hseen.cons hr hs ht fun hmem => hnew (.inr hmem), by simp only [List.length_cons]; omega⟩
        · exact ih (hvalid p hp).1 (hvalid p hp).2 hpairs hlength (Nat.le_of_succ_le_succ hle)
        · obtain ⟨hpairs', hnotes, -⟩ := matchTo_spec hr (hvalid p hp).1 (hvalid p hp).2 hpairs hlength htest
          have := hnotes.length
          exact ⟨hpairs', by omega⟩
      · rfl

/-- The registries that entering and defining types gives. -/
inductive Built : Registry → Prop where
  | initial : Built initial
  | ptr {r : Registry} {t : TypeId} (h : Built r) (ht : t < r.size) : Built (r.ptr t).2
  | arr {r : Registry} {t : TypeId} (h : Built r) (length : Int) (ht : t < r.size) : Built (r.add (.arr length t)).2
  | record {r : Registry} (h : Built r) (fields : List (String × TypeId)) (hfields : ∀ f ∈ fields, f.2 < r.size) :
      Built (r.add (.record fields)).2
  | named {r : Registry} (h : Built r) (name : String) : Built (r.add (.named name none)).2
  | define {r : Registry} {d : TypeId} (h : Built r) (t : TypeId) (hd : d < r.size) : Built (r.define t d)

theorem Built.closed (h : r.Built) : r.Closed := by
  induction h with
  | initial => exact closed_initial
  | @ptr r t _ ht ih =>
    obtain ⟨heq, -⟩ | heq := r.ptr_cases t
    · rwa [heq]
    · rw [heq]
      exact ih.add (by simpa [Ty.targets] using ht)
  | arr _ _ ht ih => exact ih.add (by simpa [Ty.targets] using ht)
  | record _ _ hfields ih => exact ih.add (List.forall_mem_map.mpr hfields)
  | named _ _ ih => exact ih.add (by simp [Ty.targets])
  | define _ _ hd ih => exact ih.define hd

theorem Built.first (h : r.Built) (ht : t < r.size) (hnew : Ty.ptr t ∉ r.types.toList) : (r.add (.ptr t)).2.Built := by
  have hnone : r.types.findIdx? (· = .ptr t) = none := by
    rw [Array.findIdx?_eq_none_iff]
    intro x hx
    have hne : x ≠ .ptr t := fun heq => hnew (heq ▸ hx.val)
    simpa using hne
  have hptr := h.ptr ht
  rwa [Registry.ptr, hnone] at hptr

theorem equiv_iff_bisimulation (hr : r.Closed) (hcircle : r.circle? = none) (hs : s < r.size) (ht : t < r.size) :
    r.equiv s t ↔ ∃ R, r.Bisimulation R ∧ R s t :=
  (equiv_iff hr hs ht).trans (alike_iff_bisimulation hcircle)

/-- Comparison decides whether two types unfold to the same tree, and depth does not bound it: where no type contains
itself, two types match if and only if a bisimulation relates them. -/
theorem equiv_iff_unfolds_eq (hbuilt : r.Built) (hcircle : r.circle? = none) : (∀ s < r.size, ∀ t < r.size,
      (r.equiv s t ↔ r.Unfolds s = r.Unfolds t) ∧
      (r.equiv s t ↔ ∃ R, r.Bisimulation R ∧ R s t) ∧
      ∀ n, r.size * r.size < n → r.matchTo n [] (s, t) = r.matchTo (r.size * r.size + 1) [] (s, t)) ∧
    Equivalence fun s t : Fin r.size => r.equiv s t := by
  have hr := hbuilt.closed
  have hsame : ∀ s < r.size, ∀ t < r.size, (r.equiv s t ↔ r.Unfolds s = r.Unfolds t) := fun s hs t ht =>
    (equiv_iff_bisimulation hr hcircle hs ht).trans (unfolds_eq_iff hcircle).symm
  refine ⟨fun s hs t ht => ⟨hsame s hs t ht, equiv_iff_bisimulation hr hcircle hs ht, fun n hn => ?_⟩, ?_⟩
  · exact matchTo_of_le hr hs ht ⟨List.nodup_nil, by simp⟩ (by simp) hn
  · -- equality of unfoldings is an equivalence, whatever the presentations are
    have hfin : ∀ s t : Fin r.size, r.equiv s t ↔ r.Unfolds s = r.Unfolds t := fun s t => hsame s s.isLt t t.isLt
    exact ⟨fun s => (hfin s s).mpr rfl, fun h => (hfin _ _).mpr ((hfin _ _).mp h).symm,
      fun h h' => (hfin _ _).mpr (((hfin _ _).mp h).trans ((hfin _ _).mp h'))⟩

/-- Lists under two names. The second goes round twice before it refers to itself. -/
def lists : Registry := ⟨#[.int, .char, .bool, .void,
  .named "list" (some 6), .ptr 4, .record [("next", 5), ("head", 0)],
  .named "chain" (some 11), .ptr 7, .record [("rest", 8), ("first", 0)], .ptr 9, .record [("rest", 10), ("first", 0)]]⟩

theorem built_lists : lists.Built := by
  have hlist := ((Built.initial.named "list").first (t := 4) (by decide) (by decide)).record [("next", 5), ("head", 0)]
    (by decide) |>.define 4 (d := 6) (by decide)
  have hchain := ((hlist.named "chain").first (t := 7) (by decide) (by decide)).record [("rest", 8), ("first", 0)]
    (by decide)
  exact ((hchain.first (t := 9) (by decide) (by decide)).record [("rest", 10), ("first", 0)] (by decide)).define 7
    (d := 11) (by decide)

theorem lists_unfold_alike : lists.Built ∧ lists.circle? = none ∧ lists.Unfolds 4 = lists.Unfolds 7 ∧
    lists.Unfolds 5 ≠ lists.Unfolds 7 := by
  have hcircle : lists.circle? = none := by decide
  have hunfolds := (equiv_iff_unfolds_eq built_lists hcircle).1
  refine ⟨built_lists, hcircle, (hunfolds 4 (by decide) 7 (by decide)).1.mp (by decide), fun heq => ?_⟩
  exact absurd ((hunfolds 5 (by decide) 7 (by decide)).1.mpr heq) (by decide)

end Registry
end MmixCompiler
