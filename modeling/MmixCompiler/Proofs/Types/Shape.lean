import Mathlib.Data.List.ProdSigma
import MmixCompiler.Proofs.Types.Containment
import MmixCompiler.Tree.Basic

/-! Structural equality of types. A type unfolds to a tree, which may be infinite; two types are alike if
nothing at any depth of their unfoldings tells them apart. The comparison of a registry decides this. -/

namespace MmixCompiler

/-- The outermost form of a type behind its names, over the types of its parts. -/
inductive TypeShape (α : Type) where
  | atom (type : AtomType)
  | ptr (target : α)
  | arr (length : Int) (element : α)
  | record (fields : List (String × α))

namespace TypeShape

variable {α β γ : Type} {names names' : String → String → Prop} {R : α → β → Prop}

/-- Two shapes of the same form, where `names` relates the names of components and `R` the parts. -/
inductive Agrees (names : String → String → Prop) (R : α → β → Prop) : TypeShape α → TypeShape β → Prop where
  | atom (type : AtomType) : Agrees names R (.atom type) (.atom type)
  | ptr {a : α} {b : β} (h : R a b) : Agrees names R (.ptr a) (.ptr b)
  | arr (length : Int) {a : α} {b : β} (h : R a b) : Agrees names R (.arr length a) (.arr length b)
  | record {fs : List (String × α)} {gs : List (String × β)}
      (h : List.Forall₂ (fun f g => names f.1 g.1 ∧ R f.2 g.2) fs gs) : Agrees names R (.record fs) (.record gs)

/-- Names of components may differ. -/
def anyNames (_ _ : String) : Prop := True

theorem Agrees.refl (x : TypeShape α) : x.Agrees anyNames Eq x := by
  cases x with
  | atom type => exact .atom type
  | ptr => exact .ptr rfl
  | arr => exact .arr _ rfl
  | record => exact .record (List.forall₂_same.mpr fun _ _ => ⟨trivial, rfl⟩)

theorem Agrees.mono {R' : α → β → Prop} {x : TypeShape α} {y : TypeShape β} (h : x.Agrees names R y)
    (hR : ∀ a b, R a b → R' a b) : x.Agrees names R' y := by
  cases h with
  | atom type => exact .atom type
  | ptr h => exact .ptr (hR _ _ h)
  | arr length h => exact .arr length (hR _ _ h)
  | record h => exact .record (h.imp fun _ _ hfg => ⟨hfg.1, hR _ _ hfg.2⟩)

theorem Agrees.comp {R' : β → γ → Prop} {S : α → γ → Prop} {names'' : String → String → Prop} {x : TypeShape α}
    {y : TypeShape β} {z : TypeShape γ} (h : x.Agrees names R y) (h' : y.Agrees names' R' z)
    (hnames : ∀ m n k, names m n → names' n k → names'' m k) (hS : ∀ a b c, R a b → R' b c → S a c) :
    x.Agrees names'' S z := by
  cases h with
  | atom type =>
    cases h'
    exact .atom type
  | ptr h =>
    cases h' with
    | ptr h' => exact .ptr (hS _ _ _ h h')
  | arr length h =>
    cases h' with
    | arr _ h' => exact .arr length (hS _ _ _ h h')
  | record h =>
    cases h' with
    | @record _ hs h' =>
      refine .record ?_
      induction h generalizing hs with
      | nil =>
        cases h'
        exact .nil
      | cons h _ ih =>
        cases h' with
        | cons h' hrest => exact .cons ⟨hnames _ _ _ h.1 h'.1, hS _ _ _ h.2 h'.2⟩ (ih hrest)

theorem Agrees.symm {x : TypeShape α} {y : TypeShape β} (h : x.Agrees names R y) :
    y.Agrees (fun m n => names n m) (fun b a => R a b) x := by
  cases h with
  | atom type => exact .atom type
  | ptr h => exact .ptr h
  | arr length h => exact .arr length h
  | record h => exact .record h.flip

/-- The parts to be compared of two shapes, if they have the same form. -/
def pairs : TypeShape α → TypeShape β → Option (List (α × β))
  | .atom s, .atom t => if s = t then some [] else none
  | .ptr a, .ptr b => some [(a, b)]
  | .arr k a, .arr l b => if k = l then some [(a, b)] else none
  | .record fs, .record gs =>
    if fs.length = gs.length then some ((fs.map Prod.snd).zip (gs.map Prod.snd)) else none
  | _, _ => none

def parts : TypeShape α → List α
  | .atom _ => []
  | .ptr a | .arr _ a => [a]
  | .record fields => fields.map Prod.snd

theorem mem_parts_of_pairs {x : TypeShape α} {y : TypeShape β} {ps : List (α × β)} (h : x.pairs y = some ps) :
    ∀ p ∈ ps, p.1 ∈ x.parts ∧ p.2 ∈ y.parts := by
  intro p hp
  unfold pairs at h
  split at h
  · split at h <;> cases h
    cases hp
  · cases h
    simp_all [parts]
  · split at h <;> cases h
    simp_all [parts]
  · split at h <;> cases h
    exact List.of_mem_zip hp
  · cases h

theorem agrees_iff_pairs {x : TypeShape α} {y : TypeShape β} :
    x.Agrees anyNames R y ↔ ∃ ps, x.pairs y = some ps ∧ ∀ p ∈ ps, R p.1 p.2 := by
  constructor
  · intro h
    cases h with
    | atom type => exact ⟨[], by simp [pairs], by simp⟩
    | ptr h => exact ⟨_, rfl, by simpa using h⟩
    | arr length h => exact ⟨_, by simp [pairs]; rfl, by simpa using h⟩
    | @record fs gs h =>
      refine ⟨_, if_pos h.length_eq, fun p hp => ?_⟩
      have hparts : List.Forall₂ R (fs.map Prod.snd) (gs.map Prod.snd) := by
        rw [List.forall₂_map_left_iff, List.forall₂_map_right_iff]
        exact h.imp fun _ _ hfg => hfg.2
      exact (List.forall₂_iff_zip.mp hparts).2 hp
  · rintro ⟨ps, hps, h⟩
    unfold pairs at hps
    split at hps
    · split at hps
      · next heq => exact heq ▸ .atom _
      · cases hps
    · cases hps
      exact .ptr (by simpa using h)
    · split at hps
      · next heq =>
        cases hps
        exact heq ▸ .arr _ (by simpa using h)
      · cases hps
    · split at hps
      · next fs gs hlength =>
        cases hps
        have hparts : List.Forall₂ R (fs.map Prod.snd) (gs.map Prod.snd) :=
          List.forall₂_iff_zip.mpr ⟨by simpa using hlength, fun hmem => h _ hmem⟩
        rw [List.forall₂_map_left_iff, List.forall₂_map_right_iff] at hparts
        exact .record (hparts.imp fun _ _ hfg => ⟨trivial, hfg⟩)
      · cases hps
    · cases hps

end TypeShape

def Ty.shape? : Ty → Option (TypeShape TypeId)
  | .int => some (.atom .int)
  | .char => some (.atom .char)
  | .bool => some (.atom .bool)
  | .void => some (.atom .void)
  | .ptr target => some (.ptr target)
  | .arr length element => some (.arr length element)
  | .record fields => some (.record fields)
  | .named .. => none

namespace Registry

variable {r r' : Registry} {s t : TypeId} {R : TypeId → TypeId → Prop}

/-- The shape of a type behind its names. -/
def shape? (r : Registry) (t : TypeId) : Option (TypeShape TypeId) := (r.form t).shape?

/-- A relation that no comparison refutes: related types have shapes that agree, and a name without a
definition is related to itself only. -/
def Consistent (r : Registry) (R : TypeId → TypeId → Prop) : Prop :=
  ∀ s t, R s t → r.actual s = r.actual t ∨
    ∃ x y, r.shape? s = some x ∧ r.shape? t = some y ∧ x.Agrees TypeShape.anyNames R y

/-- Two types have equal unfoldings. -/
def Alike (r : Registry) (s t : TypeId) : Prop := ∃ R, r.Consistent R ∧ R s t

/-- The parts of two types to be compared, if they have the same form. -/
def pairs? (r : Registry) (s t : TypeId) : Option (List (TypeId × TypeId)) := do
  (← r.shape? s).pairs (← r.shape? t)

theorem matchTo_succ (n : Nat) (seen : List (TypeId × TypeId)) : r.matchTo (n + 1) seen (s, t) =
      if r.actual s = r.actual t ∨ (r.actual s, r.actual t) ∈ seen then (true, seen)
      else match r.pairs? s t with
        | some ps => allThreaded (r.matchTo n) ((r.actual s, r.actual t) :: seen) ps
        | none => (false, (r.actual s, r.actual t) :: seen) := by
  have hsingle : ∀ seen p, allThreaded (r.matchTo n) seen [p] = r.matchTo n seen p := fun seen p => by
    rw [allThreaded]
    split
    · next h => rw [h, allThreaded]
    · next h => rw [h]
  rw [matchTo]
  split
  · rfl
  · unfold pairs? shape? form
    cases r.get (r.actual s) with
    | int | char | bool | void | named => cases r.get (r.actual t) <;> rfl
    | ptr x =>
      cases r.get (r.actual t) with
      | ptr y => exact (hsingle _ _).symm
      | _ => rfl
    | arr k x =>
      cases r.get (r.actual t) with
      | arr l y => by_cases hlength : k = l <;> simp [Ty.shape?, TypeShape.pairs, hlength, hsingle]
      | _ => rfl
    | record xs =>
      cases r.get (r.actual t) with
      | record ys => by_cases hlength : xs.length = ys.length <;> simp [Ty.shape?, TypeShape.pairs, hlength]
      | _ => rfl

theorem Closed.shape? (hr : r.Closed) (ht : t < r.size) {x : TypeShape TypeId} (hx : r.shape? t = some x) :
    ∀ j ∈ x.parts, j < r.size := by
  intro j hj
  refine hr.form ht ?_
  cases hform : r.form t with
  | named => simp [Registry.shape?, hform, Ty.shape?] at hx
  | int | char | bool | void =>
    simp only [Registry.shape?, hform, Ty.shape?, Option.some.injEq] at hx
    subst hx
    cases hj
  | ptr | arr | record =>
    simp only [Registry.shape?, hform, Ty.shape?, Option.some.injEq] at hx
    subst hx
    simpa [TypeShape.parts, Ty.targets] using hj

/-- Pairs of types of the registry, each once. -/
structure Pairs (r : Registry) (seen : List (TypeId × TypeId)) : Prop where
  nodup : seen.Nodup
  valid : ∀ p ∈ seen, p.1 < r.size ∧ p.2 < r.size

theorem Pairs.length_le {seen : List (TypeId × TypeId)} (h : r.Pairs seen) : seen.length ≤ r.size * r.size := by
  have hsub : seen ⊆ List.range r.size ×ˢ List.range r.size := fun p hp =>
    List.mem_product.mpr ⟨List.mem_range.mpr (h.valid p hp).1, List.mem_range.mpr (h.valid p hp).2⟩
  simpa [List.length_product] using (h.nodup.subperm hsub).length_le

theorem Pairs.cons {seen : List (TypeId × TypeId)} (h : r.Pairs seen) (hr : r.Closed) (hs : s < r.size)
    (ht : t < r.size) (hnew : (r.actual s, r.actual t) ∉ seen) : r.Pairs ((r.actual s, r.actual t) :: seen) :=
  ⟨List.nodup_cons.mpr ⟨hnew, h.nodup⟩, List.forall_mem_cons.mpr ⟨⟨hr.follow_lt hs _, hr.follow_lt ht _⟩, h.valid⟩⟩

theorem Closed.pairs? (hr : r.Closed) (hs : s < r.size) (ht : t < r.size) {ps : List (TypeId × TypeId)}
    (hps : r.pairs? s t = some ps) : ∀ p ∈ ps, p.1 < r.size ∧ p.2 < r.size := by
  intro p hp
  simp only [Registry.pairs?, Option.bind_eq_bind, Option.bind_eq_some_iff] at hps
  obtain ⟨x, hx, y, hy, hps⟩ := hps
  obtain ⟨hmem, hmem'⟩ := TypeShape.mem_parts_of_pairs hps p hp
  exact ⟨hr.shape? hs hx _ hmem, hr.shape? ht hy _ hmem'⟩

/-- Two types are the same behind their names, or their comparison has been noted. -/
def Met (r : Registry) (seen : List (TypeId × TypeId)) (s t : TypeId) : Prop :=
  r.actual s = r.actual t ∨ (r.actual s, r.actual t) ∈ seen

/-- The parts of two types, the same behind names as those of the pair, have been met. -/
def Backed (r : Registry) (seen : List (TypeId × TypeId)) (q : TypeId × TypeId) : Prop :=
  ∀ s t, (r.actual s, r.actual t) = q → ∃ ps, r.pairs? s t = some ps ∧ ∀ p ∈ ps, r.Met seen p.1 p.2

/-- What a comparison may add to the pairs seen. -/
structure Notes (r : Registry) (seen seen' : List (TypeId × TypeId)) : Prop where
  subset : seen ⊆ seen'
  length : seen.length ≤ seen'.length
  backed : ∀ q ∈ seen', q ∈ seen ∨ r.Backed seen' q

theorem Met.mono {seen seen' : List (TypeId × TypeId)} (h : r.Met seen s t) (hsub : seen ⊆ seen') :
    r.Met seen' s t := h.imp_right fun hmem => hsub hmem

theorem Backed.mono {seen seen' : List (TypeId × TypeId)} {q : TypeId × TypeId} (h : r.Backed seen q)
    (hsub : seen ⊆ seen') : r.Backed seen' q := by
  intro s t heq
  obtain ⟨ps, hps, hmet⟩ := h s t heq
  exact ⟨ps, hps, fun p hp => (hmet p hp).mono hsub⟩

theorem Notes.refl (seen : List (TypeId × TypeId)) : r.Notes seen seen :=
  ⟨List.Subset.refl _, Nat.le_refl _, fun _ => .inl⟩

theorem Notes.trans {seen seen' seen'' : List (TypeId × TypeId)} (h : r.Notes seen seen')
    (h' : r.Notes seen' seen'') : r.Notes seen seen'' := by
  refine ⟨List.Subset.trans h.subset h'.subset, Nat.le_trans h.length h'.length, fun q hq => ?_⟩
  rcases h'.backed q hq with hq | hq
  · exact (h.backed q hq).imp_right fun hq => hq.mono h'.subset
  · exact .inr hq

/-- A comparison that succeeds has met the two types. It never runs out of depth, since every step notes a
pair that was not there. -/
theorem matchTo_spec (hr : r.Closed) {n : Nat} {seen seen' : List (TypeId × TypeId)} (hs : s < r.size)
    (ht : t < r.size) (hseen : r.Pairs seen) (hn : r.size * r.size < n + seen.length)
    (h : r.matchTo n seen (s, t) = (true, seen')) : r.Pairs seen' ∧ r.Notes seen seen' ∧ r.Met seen' s t := by
  induction n generalizing seen seen' s t with
  | zero => exact absurd hseen.length_le (by omega)
  | succ n ih =>
    rw [matchTo_succ] at h
    split at h
    · next hmet =>
      cases h
      exact ⟨hseen, .refl _, hmet⟩
    · next hnew =>
      split at h
      · next ps hps =>
        have hvalid := hr.pairs? hs ht hps
        have hfirst := hseen.cons hr hs ht fun hmem => hnew (.inr hmem)
        have hmono : ∀ (seen seen' : List (TypeId × TypeId)) (p : TypeId × TypeId), r.Notes seen seen' →
            r.Met seen p.1 p.2 → r.Met seen' p.1 p.2 := fun _ _ _ hnotes hmet => hmet.mono hnotes.subset
        obtain ⟨⟨hpairs, -⟩, hnotes, hparts⟩ := allThreaded_spec
          (I := fun seen => r.Pairs seen ∧ r.size * r.size < n + seen.length) .refl (fun _ _ _ => .trans) hmono
          (fun p hp seen₁ seen₂ hseen₁ htest => by
            obtain ⟨hpairs, hlength⟩ := hseen₁
            obtain ⟨hpairs', hnotes, hmet⟩ := ih (hvalid p hp).1 (hvalid p hp).2 hpairs hlength htest
            have := hnotes.length
            exact ⟨⟨hpairs', by omega⟩, hnotes, hmet⟩)
          ⟨hfirst, by simp only [List.length_cons]; omega⟩ h
        have hmem := hnotes.subset List.mem_cons_self
        refine ⟨hpairs, ⟨fun q hq => hnotes.subset (List.mem_cons_of_mem _ hq), ?_, fun q hq => ?_⟩, .inr hmem⟩
        · have := hnotes.length
          simp only [List.length_cons] at this
          omega
        · rcases hnotes.backed q hq with hq | hq
          · rcases List.mem_cons.mp hq with rfl | hq
            · refine .inr fun u v heq => ⟨ps, ?_, hparts⟩
              simp only [Prod.mk.injEq] at heq
              rw [← hps, Registry.pairs?, Registry.pairs?, shape?, shape?, form, form, heq.1, heq.2]
              rfl
            · exact .inl hq
          · exact .inr hq
      · cases h

theorem allThreaded_of_forall {α σ : Type} {test : σ → α → Bool × σ} {as : List α}
    (h : ∀ a ∈ as, ∀ s, (test s a).1 = true) (s : σ) : (allThreaded test s as).1 = true := by
  induction as generalizing s with
  | nil => rfl
  | cons a as ih =>
    have ha := h a List.mem_cons_self s
    rw [allThreaded]
    split
    · exact ih (fun a ha => h a (List.mem_cons_of_mem _ ha)) _
    · next heq => simp [heq] at ha

/-- A comparison does not tell types apart that are alike. -/
theorem matchTo_of_consistent (hR : r.Consistent R) (h : R s t) (n : Nat) (seen : List (TypeId × TypeId)) :
    (r.matchTo n seen (s, t)).1 = true := by
  induction n generalizing seen s t with
  | zero => rfl
  | succ n ih =>
    rw [matchTo_succ]
    split
    · rfl
    · next hnew =>
      obtain heq | ⟨x, y, hx, hy, hagrees⟩ := hR s t h
      · exact absurd (.inl heq) hnew
      · obtain ⟨ps, hps, hparts⟩ := TypeShape.agrees_iff_pairs.mp hagrees
        have hpairs : r.pairs? s t = some ps := by simp [Registry.pairs?, hx, hy, hps]
        rw [hpairs]
        exact allThreaded_of_forall (fun p hp => ih (hparts p hp)) _

theorem equiv_iff (hr : r.Closed) (hs : s < r.size) (ht : t < r.size) : r.equiv s t ↔ r.Alike s t := by
  constructor
  · intro h
    cases hmatch : r.matchTo (r.size * r.size + 1) [] (s, t) with
    | mk found seen =>
      have hfound : found = true := by simpa [equiv, hmatch] using h
      subst hfound
      obtain ⟨-, hnotes, hmet⟩ := matchTo_spec hr hs ht ⟨List.nodup_nil, by simp⟩ (by simp) hmatch
      refine ⟨r.Met seen, fun u v huv => huv.imp_right fun hmem => ?_, hmet⟩
      obtain ⟨ps, hps, hparts⟩ := (hnotes.backed _ hmem).resolve_left (by simp) u v rfl
      simp only [Registry.pairs?, Option.bind_eq_bind, Option.bind_eq_some_iff] at hps
      obtain ⟨x, hx, y, hy, hps⟩ := hps
      exact ⟨x, y, hx, hy, TypeShape.agrees_iff_pairs.mpr ⟨ps, hps, hparts⟩⟩
  · rintro ⟨R, hR, h⟩
    exact matchTo_of_consistent hR h _ _

end Registry
end MmixCompiler
