import MmixCompiler.Proofs.Types.Unfolding

/-! Circles of containment. The search for circles goes from every named type and finds one exactly if some type
contains itself: arrays and records contain only what was entered before them, so that every circle goes through a
name. Without circles, finding the bytes of a type comes to an end. -/

namespace MmixCompiler

theorem exists_of_allThreaded {α σ : Type} {test : σ → α → Bool × σ} {as : List α} {s s' : σ}
    (h : allThreaded test s as = (false, s')) : ∃ a ∈ as, ∃ s₁, test s₁ a = (false, s') := by
  induction as generalizing s with
  | nil => cases h
  | cons a as ih =>
    rw [allThreaded] at h
    split at h
    · obtain ⟨b, hb, hfails⟩ := ih h
      exact ⟨b, List.mem_cons_of_mem _ hb, hfails⟩
    · next htest =>
      cases h
      exact ⟨a, List.mem_cons_self, s, htest⟩

namespace Registry

variable {r : Registry} {s t u : TypeId}

/-- A type contains another as a part of itself. Nothing is contained through a pointer. -/
inductive Contains (r : Registry) : TypeId → TypeId → Prop where
  | definition {t d : TypeId} {name : String} (h : r.get t = .named name (some d)) : Contains r t d
  | element {t e : TypeId} {length : Int} (h : r.get t = .arr length e) : Contains r t e
  | component {t u : TypeId} {fields : List (String × TypeId)} {name : String} (h : r.get t = .record fields)
      (hu : (name, u) ∈ fields) : Contains r t u

/-- A type is reached from itself in one or more steps of containment. -/
def ContainsItself (r : Registry) (t : TypeId) : Prop := Relation.TransGen r.Contains t t

/-- A type contains itself, or has a part somewhere that does. -/
def LeadsToCircle (r : Registry) (t : TypeId) : Prop := ∃ u, Relation.ReflTransGen r.Contains t u ∧ r.ContainsItself u

theorem contains_iff : r.Contains t u ↔ r.PartOf u t := by
  constructor
  · intro h
    cases h with
    | definition h => simp [PartOf, parts, h]
    | element h => simp [PartOf, parts, h]
    | component h hu => simpa [PartOf, parts, h] using ⟨_, hu⟩
  · intro h
    unfold PartOf parts at h
    split at h
    · next hget => exact List.mem_singleton.mp h ▸ .definition hget
    · next hget => exact List.mem_singleton.mp h ▸ .element hget
    · next hget =>
      obtain ⟨f, hf, rfl⟩ := List.mem_map.mp h
      exact .component hget hf
    · cases h

theorem contains_lt (h : r.Contains t u) : t < r.size := lt_of_partOf (contains_iff.mp h)

/-- A type from which every way ends leads to no circle. -/
theorem not_leadsToCircle_of_acc (h : Acc r.PartOf t) : ¬ r.LeadsToCircle t := by
  induction h with
  | intro t _ ih =>
    rintro ⟨u, hreach, hcircle⟩
    rcases Relation.ReflTransGen.cases_head hreach with rfl | ⟨v, hv, hreach⟩
    · -- the first type on a circle is on it too
      obtain ⟨v, hv, hback⟩ := Relation.TransGen.head'_iff.mp hcircle
      exact ih v (contains_iff.mp hv) ⟨v, .refl, .tail' hback hv⟩
    · exact ih v (contains_iff.mp hv) ⟨u, hreach, hcircle⟩

/-- What the search meets again below itself is on a circle. -/
theorem leadsToCircle_of_circleTo {n : Nat} {path done done' : List TypeId}
    (hpath : ∀ x ∈ path, Relation.TransGen r.Contains x t) (h : r.circleTo n path done t = (true, done')) :
    r.LeadsToCircle t := by
  induction n generalizing path done done' t with
  | zero => cases h
  | succ n ih =>
    rw [circleTo] at h
    split at h
    · cases h
    · split at h
      · next hmem => exact ⟨t, .refl, hpath t hmem⟩
      · split at h
        · cases h
        · next done₁ hall =>
          obtain ⟨u, hu, s, htest⟩ := exists_of_allThreaded hall
          have hfound : r.circleTo n (t :: path) s u = (true, done₁) := by simpa [Prod.ext_iff] using htest
          have hstep : r.Contains t u := contains_iff.mpr hu
          obtain ⟨v, hreach, hcircle⟩ := ih (List.forall_mem_cons.mpr
            ⟨.single hstep, fun x hx => (hpath x hx).tail hstep⟩) hfound
          exact ⟨v, .head hstep hreach, hcircle⟩

/-- The types before the one that is found lead to no circle. -/
theorem firstCircle_eq_some {done ts : List TypeId} (hdone : ∀ x ∈ done, Acc r.PartOf x)
    (h : r.firstCircle done ts = some t) : r.LeadsToCircle t ∧
      ∃ before after, ts = before ++ t :: after ∧ ∀ s ∈ before, ¬ r.LeadsToCircle s := by
  induction ts generalizing done with
  | nil => cases h
  | cons s ts ih =>
    rw [firstCircle] at h
    split at h
    · next hsearch =>
      cases h
      exact ⟨leadsToCircle_of_circleTo (by simp) hsearch, [], ts, rfl, by simp⟩
    · next done' hsearch =>
      obtain ⟨hdone', -, hs⟩ := circleTo_spec List.nodup_nil (by simp) (by simp) hdone hsearch
      obtain ⟨ht, before, after, rfl, hbefore⟩ := ih hdone' h
      exact ⟨ht, s :: before, after, rfl, List.forall_mem_cons.mpr ⟨not_leadsToCircle_of_acc (hdone' s hs), hbefore⟩⟩

theorem circle?_eq_some_iff : r.circle? = some t ↔
    r.isNamed t ∧ r.LeadsToCircle t ∧ ∀ s < t, r.isNamed s → ¬ r.LeadsToCircle s := by
  have hfound : ∀ {t}, r.circle? = some t →
      r.isNamed t ∧ r.LeadsToCircle t ∧ ∀ s < t, r.isNamed s → ¬ r.LeadsToCircle s := by
    intro t h
    obtain ⟨ht, before, after, hsplit, hbefore⟩ := firstCircle_eq_some (by simp) h
    have hmem : t ∈ (List.range r.size).filter r.isNamed := by simp [hsplit]
    refine ⟨(List.mem_filter.mp hmem).2, ht, fun s hs hnamed => hbefore s ?_⟩
    -- the named types are searched in order
    have hsorted : (before ++ t :: after).Pairwise (· < ·) := hsplit ▸ List.pairwise_lt_range.filter _
    have hs' : s ∈ before ++ t :: after := by
      rw [← hsplit]
      exact List.mem_filter.mpr ⟨List.mem_range.mpr (lt_of_isNamed hnamed), hnamed⟩
    rcases List.mem_append.mp hs' with hs' | hs'
    · exact hs'
    · obtain ⟨-, hafter, -⟩ := List.pairwise_append.mp hsorted
      rcases List.mem_cons.mp hs' with rfl | hs'
      · exact absurd hs (Nat.lt_irrefl _)
      · exact absurd hs (Nat.lt_asymm ((List.pairwise_cons.mp hafter).1 s hs'))
  refine ⟨hfound, fun ⟨hnamed, ht, hfirst⟩ => ?_⟩
  cases hcircle : r.circle? with
  | none => exact absurd ht (not_leadsToCircle_of_acc (acc_of_circle? hcircle hnamed))
  | some u =>
    obtain ⟨hnamed', hu, hfirst'⟩ := hfound hcircle
    rcases Nat.lt_trichotomy t u with hlt | rfl | hlt
    · exact absurd ht (hfirst' t hlt hnamed)
    · rfl
    · exact absurd hu (hfirst u hlt hnamed')

theorem Built.target_lt (h : r.Built) {i j : TypeId} (hi : (r.get i).isComposite) (hj : j ∈ (r.get i).targets) :
    j < i := by
  -- entering a type at the end leaves the others as they are
  have hadd : ∀ {r : Registry} {y : Ty}, (∀ i j, (r.get i).isComposite → j ∈ (r.get i).targets → j < i) →
      (y.isComposite → ∀ j ∈ y.targets, j < r.size) →
      ∀ i j, ((r.add y).2.get i).isComposite → j ∈ ((r.add y).2.get i).targets → j < i := by
    intro r y ih hy i j hi hj
    rw [get_add] at hi hj
    split at hi
    · next heq => exact heq ▸ hy hi j (by simpa [heq] using hj)
    · next hne => exact ih i j hi (by simpa [hne] using hj)
  induction h generalizing i j with
  | initial =>
    have hnone : ∀ i < 4, (Registry.initial.get i).isComposite = false := by decide
    rcases Nat.lt_or_ge i 4 with hlt | hge
    · simp [hnone i hlt] at hi
    · simp [get_of_size_le (show Registry.initial.size ≤ i from hge), Ty.isComposite] at hi
  | @ptr r t _ _ ih =>
    obtain ⟨heq, -⟩ | heq := r.ptr_cases t
    · rw [heq] at hi hj
      exact ih hi hj
    · rw [heq] at hi hj
      exact hadd (fun _ _ => ih) (by simp [Ty.isComposite]) i j hi hj
  | arr _ _ ht ih => exact hadd (fun _ _ => ih) (fun _ => by simpa [Ty.targets] using ht) i j hi hj
  | record _ _ hfields ih =>
    exact hadd (fun _ _ => ih) (fun _ => by simpa [Ty.targets] using fun t name => hfields (name, t)) i j hi hj
  | named _ _ ih => exact hadd (fun _ _ => ih) (by simp [Ty.isComposite]) i j hi hj
  | @define r d _ t _ ih =>
    rcases get_define r t d i with heq | ⟨-, name, old, -, hnew⟩
    · rw [heq] at hi hj
      exact ih hi hj
    · simp [hnew, Ty.isComposite] at hi

theorem Built.contains_lt (h : r.Built) (ht : r.isNamed t = false) (hu : r.Contains t u) : u < t := by
  cases hu with
  | definition hget => simp [isNamed, hget] at ht
  | element hget => exact h.target_lt (by simp [hget, Ty.isComposite]) (by simp [hget, Ty.targets])
  | component hget hmem =>
    exact h.target_lt (by simp [hget, Ty.isComposite]) (by simpa [hget, Ty.targets] using ⟨_, hmem⟩)

/-- If no named type leads to a circle, there is none. -/
theorem Built.acc_of_circle? (h : r.Built) (hcircle : r.circle? = none) (t : TypeId) : Acc r.PartOf t := by
  induction t using Nat.strong_induction_on with
  | h t ih =>
    cases hnamed : r.isNamed t with
    | true => exact Registry.acc_of_circle? hcircle hnamed
    | false => exact ⟨t, fun u hu => ih u (h.contains_lt hnamed (contains_iff.mpr hu))⟩

theorem Built.circle?_eq_none_iff (h : r.Built) : r.circle? = none ↔ ∀ t, ¬ r.ContainsItself t := by
  constructor
  · intro hcircle t ht
    exact not_leadsToCircle_of_acc (h.acc_of_circle? hcircle t) ⟨t, .refl, ht⟩
  · intro hnone
    cases hcircle : r.circle? with
    | none => rfl
    | some t =>
      obtain ⟨-, ⟨u, -, hu⟩, -⟩ := circle?_eq_some_iff.mp hcircle
      exact absurd hu (hnone u)

/-- Finding the bytes of a type ends with a result. It finds the bytes of the elements of an array and of the
components of a record first, to whatever depth they are nested. -/
inductive Measures (r : Registry) : TypeId → Option Int → Prop where
  | word {t : TypeId}
      (h : r.form t = .int ∨ r.form t = .char ∨ r.form t = .bool ∨ ∃ target, r.form t = .ptr target) :
      Measures r t (some Word.size)
  | nothing {t : TypeId} (h : r.form t = .void ∨ ∃ name d, r.form t = .named name d) : Measures r t (some 0)
  | arr {t e : TypeId} {length : Int} {o : Option Int} (h : r.form t = .arr length e) (he : Measures r e o) :
      Measures r t (do Word.checked (length * (← o)))
  | record {t : TypeId} {fields : List (String × TypeId)} {g : TypeId → Option Int} (h : r.form t = .record fields)
      (hfields : ∀ f ∈ fields, Measures r f.2 (g f.2)) :
      Measures r t (fields.foldlM (fun total f => do Word.checked (total + (← g f.2))) 0)

theorem Measures.unique {o o' : Option Int} (h : r.Measures t o) (h' : r.Measures t o') : o = o' := by
  induction h generalizing o' with
  | word h =>
    cases h' with
    | word => rfl
    | nothing h' => rcases h with h | h | h | ⟨_, h⟩ <;> simp [h] at h'
    | arr h' | record h' => simp [h'] at h
  | nothing h =>
    cases h' with
    | word h' => rcases h with h | ⟨_, _, h⟩ <;> simp [h] at h'
    | nothing => rfl
    | arr h' | record h' => simp [h'] at h
  | arr h _ ih =>
    cases h' with
    | word h' | nothing h' | record h' => simp [h] at h'
    | arr h' he' =>
      cases h.symm.trans h'
      rw [ih he']
  | @record t fields g h _ ih =>
    cases h' with
    | word h' | nothing h' | arr h' => simp [h] at h'
    | record h' hfields' =>
      cases h.symm.trans h'
      refine Option.ext fun b =>
        ⟨(foldlM_checked_mono · fun f hf c hc => ?_), (foldlM_checked_mono · fun f hf c hc => ?_)⟩
      · rwa [← ih f hf (hfields' f hf)]
      · rwa [ih f hf (hfields' f hf)]

/-- Without circles, a way down through parts never comes twice by the same type, so that it is no longer than there
are types, and the depth of `bytesTo` does not matter. -/
theorem measures_bytesTo (hnone : ∀ t, ¬ r.ContainsItself t) {n : Nat} {path : List TypeId} (hnodup : path.Nodup)
    (hpath : ∀ x ∈ path, x < r.size ∧ Relation.TransGen r.Contains x t) (hn : r.size < n + path.length) :
    r.Measures t (r.bytesTo n t) := by
  induction n generalizing path t with
  | zero => exact absurd (length_le_of_nodup hnodup fun x hx => (hpath x hx).1) (by omega)
  | succ n ih =>
    have hactual : Relation.ReflTransGen r.Contains t (r.actual t) :=
      Relation.ReflTransGen.mono (fun _ _ => contains_iff.mpr) _ _ (within_follow r.size)
    have hpart : ∀ u, r.Contains (r.actual t) u → r.Measures u (r.bytesTo n u) := by
      intro u hu
      have hnew : (r.actual t :: path).Nodup := List.nodup_cons.mpr
        ⟨fun hmem => hnone _ ((hpath _ hmem).2.trans_left hactual), hnodup⟩
      refine ih hnew (List.forall_mem_cons.mpr ⟨⟨contains_lt hu, .single hu⟩, fun x hx => ⟨(hpath x hx).1, ?_⟩⟩) ?_
      · exact ((hpath x hx).2.trans_left hactual).tail hu
      · simp only [List.length_cons]
        omega
    rw [bytesTo]
    cases hform : r.form t with
    | int | char | bool | ptr => exact .word (by simp [hform])
    | void | named => exact .nothing (by simp [hform])
    | arr length e => exact .arr hform (hpart e (.element hform))
    | record fields => exact .record hform fun f hf => hpart f.2 (.component hform hf)

/-- The search for circles is exact: in a registry that entering and defining types gives, it finds none if and only if
no type contains itself. If it finds none, finding the bytes of any type ends, with the result that `bytes?` gives. -/
theorem circle?_exact (h : r.Built) : (r.circle? = none ↔ ∀ t, ¬ r.ContainsItself t) ∧
    (r.circle? = none → ∀ t o, r.Measures t o ↔ r.bytes? t = o) := by
  refine ⟨h.circle?_eq_none_iff, fun hcircle t o => ?_⟩
  have hnone := h.circle?_eq_none_iff.mp hcircle
  have hends : r.Measures t (r.bytes? t) := measures_bytesTo hnone List.nodup_nil (by simp) (by simp)
  exact ⟨fun ho => hends.unique ho, fun heq => heq ▸ hends⟩

/-- A record and an array that contain each other. The name of the record was a number at first. -/
def knot : Registry := ⟨#[.int, .char, .bool, .void,
  .named "row" (some 6), .named "cell" (some 7), .record [("first", 5), ("last", 5)], .arr 2 4]⟩

theorem built_knot : knot.Built := by
  have hentered := (((((Built.initial.named "row").named "cell").define 4 (d := 0) (by decide)).record
    [("first", 5), ("last", 5)] (by decide)).arr (t := 4) 2 (by decide))
  exact (hentered.define 4 (d := 6) (by decide)).define 5 (d := 7) (by decide)

/-- Lists refer to themselves through pointers only, and have bytes; a row contains itself. -/
theorem lists_measured :
    (lists.Built ∧ lists.circle? = none ∧ (∀ t, ¬ lists.ContainsItself t) ∧ lists.Measures 4 (some 16)) ∧
    knot.Built ∧ ∃ t, knot.ContainsItself t := by
  have hcircle : lists.circle? = none := by decide
  obtain ⟨hexact, hends⟩ := circle?_exact built_lists
  refine ⟨⟨built_lists, hcircle, hexact.mp hcircle, (hends hcircle 4 (some 16)).mpr (by decide)⟩, built_knot, ?_⟩
  by_contra hnone
  have hknot := (circle?_exact built_knot).1.mpr (not_exists.mp hnone)
  exact absurd hknot (by decide)

end Registry
end MmixCompiler
