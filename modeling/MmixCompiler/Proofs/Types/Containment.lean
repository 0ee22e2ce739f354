import Mathlib.Logic.Relation
import Mathlib.Tactic.Linarith
import MmixCompiler.Proofs.Types.Registry

/-! Containment among the types of a registry. If the search for circles finds none, no named type is below
itself, so every type has a form behind its names. The bytes of a type are those of its parts together. -/

namespace MmixCompiler

open List

variable {α : Type} {as : List α} {n : Nat} {g : α → Option Int} {total b : Int}

/-- What a test that succeeds finds out stays so while the list is tested, and in the end it is known of all. -/
theorem allThreaded_spec {σ : Type} {test : σ → α → Bool × σ} {I : σ → Prop} {G : σ → σ → Prop}
    {Q : σ → α → Prop} (hrefl : ∀ s, G s s) (htrans : ∀ s s' s'', G s s' → G s' s'' → G s s'')
    (hmono : ∀ s s' a, G s s' → Q s a → Q s' a)
    (h : ∀ a ∈ as, ∀ s s', I s → test s a = (true, s') → I s' ∧ G s s' ∧ Q s' a) {s s' : σ} (hs : I s)
    (hall : allThreaded test s as = (true, s')) : I s' ∧ G s s' ∧ ∀ a ∈ as, Q s' a := by
  induction as generalizing s with
  | nil =>
    cases hall
    exact ⟨hs, hrefl _, by simp⟩
  | cons a as ih =>
    rw [allThreaded] at hall
    split at hall
    · next s₁ htest =>
      obtain ⟨hs₁, hgrows, ha⟩ := h a mem_cons_self s s₁ hs htest
      obtain ⟨hs', hgrows', has⟩ := ih (fun a ha => h a (mem_cons_of_mem _ ha)) hs₁ hall
      exact ⟨hs', htrans s s₁ s' hgrows hgrows', forall_mem_cons.mpr ⟨hmono s₁ s' a hgrows' ha, has⟩⟩
    · cases hall

namespace Registry

variable {r r' : Registry} {t u : Nat}

/-- A type is a part of another. -/
def PartOf (r : Registry) (u t : TypeId) : Prop := u ∈ r.parts t

theorem lt_of_partOf (h : r.PartOf u t) : t < r.size := by
  by_contra hge
  simp [PartOf, parts, get_of_size_le (Nat.not_lt.mp hge)] at h

theorem partOf_of_next? (h : r.next? t = some u) : r.PartOf u t := by
  obtain ⟨name, hget⟩ := next?_eq_some.mp h
  simp [PartOf, parts, hget]

/-- A path through a registry has no room for all its types and one more. -/
theorem length_le_of_nodup {path : List TypeId} (hnodup : path.Nodup) (hlt : ∀ x ∈ path, x < r.size) :
    path.length ≤ r.size := by
  have hsub : path ⊆ List.range r.size := fun x hx => mem_range.mpr (hlt x hx)
  simpa using (hnodup.subperm hsub).length_le

/-- If the search below a type finds no circle, the type is on none, and neither are those found before. -/
theorem circleTo_spec {path done done' : List TypeId} (hnodup : path.Nodup)
    (hpath : ∀ x ∈ path, x < r.size) (hn : r.size < n + path.length) (hdone : ∀ x ∈ done, Acc r.PartOf x)
    (h : r.circleTo n path done t = (false, done')) :
    (∀ x ∈ done', Acc r.PartOf x) ∧ done ⊆ done' ∧ t ∈ done' := by
  induction n generalizing path done done' t with
  | zero => exact absurd (length_le_of_nodup hnodup hpath) (by omega)
  | succ n ih =>
    rw [circleTo] at h
    split at h
    · next hmem =>
      cases h
      exact ⟨hdone, List.Subset.refl _, hmem⟩
    · split at h
      · cases h
      · next hnew =>
        split at h
        · next done₁ hall =>
          cases h
          obtain ⟨hdone₁, hsub, hparts⟩ := allThreaded_spec (I := fun done => ∀ x ∈ done, Acc r.PartOf x)
            (G := fun done done' => done ⊆ done') (Q := fun done u => u ∈ done) List.Subset.refl
            (fun _ _ _ => List.Subset.trans) (fun _ _ _ hsub hu => hsub hu)
            (fun u hu s s' hs htest => by
              have hfound : r.circleTo n (t :: path) s u = (false, s') := by simpa [Prod.ext_iff] using htest
              refine ih (nodup_cons.mpr ⟨hnew, hnodup⟩) ?_ ?_ hs hfound
              · exact forall_mem_cons.mpr ⟨lt_of_partOf hu, hpath⟩
              · simp only [length_cons]
                omega) hdone hall
          have ht : Acc r.PartOf t := ⟨t, fun u hu => hdone₁ u (hparts u hu)⟩
          exact ⟨forall_mem_cons.mpr ⟨ht, hdone₁⟩, List.Subset.trans hsub (subset_cons_self _ _),
            mem_cons_self⟩
        · cases h

theorem firstCircle_spec {done ts : List TypeId} (hdone : ∀ x ∈ done, Acc r.PartOf x)
    (h : r.firstCircle done ts = none) : ∀ t ∈ ts, Acc r.PartOf t := by
  induction ts generalizing done with
  | nil => simp
  | cons t ts ih =>
    rw [firstCircle] at h
    split at h
    · cases h
    · next done' hsearch =>
      obtain ⟨hdone', -, ht⟩ := circleTo_spec nodup_nil (by simp) (by simp) hdone hsearch
      exact forall_mem_cons.mpr ⟨hdone' t ht, ih hdone' h⟩

theorem lt_of_isNamed (h : r.isNamed t) : t < r.size := by
  by_contra hge
  simp [isNamed, get_of_size_le (Nat.not_lt.mp hge)] at h

theorem acc_of_circle? (h : r.circle? = none) (ht : r.isNamed t) : Acc r.PartOf t :=
  firstCircle_spec (by simp) h t (mem_filter.mpr ⟨mem_range.mpr (lt_of_isNamed ht), ht⟩)

/-- Without circles, every way along definitions comes to an end. -/
theorem rest_of_circle? (h : r.circle? = none) (t : TypeId) : r.next? (r.actual t) = none := by
  have hacc : ∀ t, Acc r.PartOf t → ∃ n, r.next? (r.follow n t) = none := fun t ht => by
    induction ht with
    | intro t _ ih =>
      cases hnext : r.next? t with
      | none => exact ⟨0, hnext⟩
      | some d =>
        obtain ⟨n, hn⟩ := ih d (partOf_of_next? hnext)
        refine ⟨n + 1, ?_⟩
        rwa [follow_succ, hnext]
  obtain ⟨n, hn⟩ : ∃ n, r.next? (r.follow n t) = none := by
    cases hnext : r.next? t with
    | none => exact ⟨0, hnext⟩
    | some d =>
      obtain ⟨name, hget⟩ := next?_eq_some.mp hnext
      exact hacc t (acc_of_circle? h (by simp [isNamed, hget]))
  rwa [actual_of_rest hn]

/-- The bytes of a type as an integer of any size, for parts nested less than `n` deep. -/
def extentTo (r : Registry) : Nat → TypeId → Int
  | 0, _ => 0
  | n + 1, t =>
    match r.form t with
    | .int | .char | .bool | .ptr _ => Word.size
    | .void | .named .. => 0
    | .arr length element => length * r.extentTo n element
    | .record fields => (fields.map fun f => r.extentTo n f.2).sum

def extent (r : Registry) (t : TypeId) : Int := r.extentTo (r.size + 1) t

theorem foldlM_checked_cons {a : α} :
    (a :: as).foldlM (fun total a => do Word.checked (total + (← g a))) total = some b ↔
      ∃ c, g a = some c ∧ Word.Fits (total + c) ∧
        as.foldlM (fun total a => do Word.checked (total + (← g a))) (total + c) = some b := by
  rw [foldlM_cons]
  cases g a with
  | none => simp
  | some c =>
    simp only [Option.bind_eq_bind, Option.bind_some, Option.some.injEq, exists_eq_left']
    by_cases hfits : Word.Fits (total + c) <;> simp [Word.checked, hfits]

section

variable (hb : as.foldlM (fun total a => do Word.checked (total + (← g a))) total = some b)

include hb

theorem foldlM_checked_mono {g' : α → Option Int} (h : ∀ a ∈ as, ∀ c, g a = some c → g' a = some c) :
    as.foldlM (fun total a => do Word.checked (total + (← g' a))) total = some b := by
  induction as generalizing total with
  | nil => exact hb
  | cons a as ih =>
    obtain ⟨c, hc, hfits, hrest⟩ := foldlM_checked_cons.mp hb
    exact foldlM_checked_cons.mpr ⟨c, h a mem_cons_self c hc, hfits,
      ih hrest fun a ha => h a (mem_cons_of_mem _ ha)⟩

theorem foldlM_checked_sum {f : α → Int} (h : ∀ a ∈ as, ∀ c, g a = some c → f a = c) :
    total + (as.map f).sum = b := by
  induction as generalizing total with
  | nil =>
    cases hb
    simp
  | cons a as ih =>
    obtain ⟨c, hc, -, hrest⟩ := foldlM_checked_cons.mp hb
    rw [map_cons, sum_cons, h a mem_cons_self c hc, ← Int.add_assoc]
    exact ih hrest fun a ha => h a (mem_cons_of_mem _ ha)

theorem foldl_clamp_of_foldlM {f f' : α → Int} (h : ∀ a ∈ as, ∀ c, g a = some c → f a = c ∧ f' a = c) (i : Nat) :
    (as.take i).foldl (fun total a => Word.clamp (total + f a)) total = total + ((as.take i).map f').sum := by
  induction as generalizing total i with
  | nil => simp
  | cons a as ih =>
    obtain ⟨c, hc, hfits, hrest⟩ := foldlM_checked_cons.mp hb
    cases i with
    | zero => simp
    | succ i =>
      obtain ⟨ha, ha'⟩ := h a mem_cons_self c hc
      rw [take_succ_cons, foldl_cons, ha, Word.clamp_of_fits hfits,
        ih hrest fun a ha => h a (mem_cons_of_mem _ ha), map_cons, sum_cons, ha', Int.add_assoc]

theorem le_of_foldlM_checked {least : Int} (h : ∀ a ∈ as, ∀ c, g a = some c → least ≤ c) :
    total + as.length * least ≤ b := by
  induction as generalizing total with
  | nil =>
    cases hb
    simp
  | cons a as ih =>
    obtain ⟨c, hc, -, hrest⟩ := foldlM_checked_cons.mp hb
    have hle := h a mem_cons_self c hc
    have hsum := ih hrest fun a ha => h a (mem_cons_of_mem _ ha)
    rw [length_cons, Int.natCast_succ, Int.add_mul, Int.one_mul]
    omega

theorem exists_of_foldlM_checked {a : α} (ha : a ∈ as) : ∃ c, g a = some c := by
  induction as generalizing total with
  | nil => cases ha
  | cons a' as ih =>
    obtain ⟨c, hc, -, hrest⟩ := foldlM_checked_cons.mp hb
    rcases mem_cons.mp ha with rfl | ha
    · exact ⟨c, hc⟩
    · exact ih hrest ha

end

theorem bytesTo_cases (h : r.bytesTo (n + 1) t = some b) :
    b = Word.size ∧ (r.form t = .int ∨ r.form t = .char ∨ r.form t = .bool ∨ ∃ u, r.form t = .ptr u) ∨
    b = 0 ∧ (r.form t = .void ∨ ∃ name d, r.form t = .named name d) ∨
    (∃ l e c, r.form t = .arr l e ∧ r.bytesTo n e = some c ∧ Word.Fits (l * c) ∧ b = l * c) ∨
    ∃ fields, r.form t = .record fields ∧
      fields.foldlM (fun total f => do Word.checked (total + (← r.bytesTo n f.2))) 0 = some b := by
  rw [bytesTo] at h
  cases hform : r.form t with
  | int | char | bool | ptr =>
    rw [hform] at h
    cases h
    simp
  | void | named =>
    rw [hform] at h
    cases h
    simp
  | arr l e =>
    rw [hform] at h
    obtain ⟨c, hc, hb⟩ := Option.bind_eq_some_iff.mp h
    obtain ⟨hfits, rfl⟩ := Word.checked_eq_some_iff.mp hb
    exact .inr (.inr (.inl ⟨l, e, c, rfl, hc, hfits, rfl⟩))
  | record fields =>
    rw [hform] at h
    exact .inr (.inr (.inr ⟨fields, rfl, h⟩))

theorem extentTo_of_bytesTo (h : r.bytesTo n t = some b) : r.extentTo n t = b := by
  induction n generalizing t b with
  | zero => cases h
  | succ n ih =>
    rw [extentTo]
    obtain ⟨rfl, hform | hform | hform | ⟨u, hform⟩⟩ | ⟨rfl, hform | ⟨name, d, hform⟩⟩ |
      ⟨l, e, c, hform, hc, -, rfl⟩ | ⟨fields, hform, hb⟩ := bytesTo_cases h
    all_goals rw [hform]
    · dsimp only
      rw [ih hc]
    · simpa using foldlM_checked_sum hb fun f _ c hc => ih hc

theorem bytesTo_succ (h : r.bytesTo n t = some b) : r.bytesTo (n + 1) t = some b := by
  induction n generalizing t b with
  | zero => cases h
  | succ n ih =>
    rw [bytesTo]
    obtain ⟨rfl, hform | hform | hform | ⟨u, hform⟩⟩ | ⟨rfl, hform | ⟨name, d, hform⟩⟩ |
      ⟨l, e, c, hform, hc, hfits, rfl⟩ | ⟨fields, hform, hb⟩ := bytesTo_cases h
    all_goals rw [hform]
    · exact Option.bind_eq_some_iff.mpr ⟨c, ih hc, Word.checked_eq_some_iff.mpr ⟨hfits, rfl⟩⟩
    · exact foldlM_checked_mono hb fun f _ c hc => ih hc

theorem bytesTo_of_le {m : Nat} (h : r.bytesTo n t = some b) (hle : n ≤ m) : r.bytesTo m t = some b := by
  induction hle with
  | refl => exact h
  | step _ ih => exact bytesTo_succ ih

theorem bytes_of_bytes? (h : r.bytes? t = some b) : r.bytes t = b := by rw [bytes, h, Option.getD_some]

theorem bytes_eq_extent (h : r.bytes? t = some b) : r.bytes t = r.extent t := by
  rw [bytes_of_bytes? h, extent, extentTo_of_bytesTo h]

theorem fieldOffset_eq {fields : List (String × TypeId)} (h : r.bytes? t = some b)
    (hform : r.form t = .record fields) (i : Nat) :
    r.fieldOffset t i = ((fields.take i).map fun f => r.extent f.2).sum := by
  have hb : fields.foldlM (fun total f => do Word.checked (total + (← r.bytesTo r.size f.2))) 0 = some b := by
    rw [bytes?, bytesTo, hform] at h
    exact h
  rw [fieldOffset, fields?_eq_some.mpr hform, Option.getD_some, foldl_clamp_of_foldlM hb ?_, Int.zero_add]
  exact fun f _ c hc => ⟨bytes_of_bytes? (bytesTo_succ hc), extentTo_of_bytesTo (bytesTo_succ hc)⟩

theorem Widens.bytesTo (h : r.Widens r') (hr : r.Closed) (n : Nat) (ht : t < r.size) :
    r'.bytesTo n t = r.bytesTo n t := by
  induction n generalizing t with
  | zero => rfl
  | succ n ih =>
    rw [Registry.bytesTo, Registry.bytesTo]
    rcases h.form hr ht with heq | ⟨⟨name, d, hname⟩, name', d', hname'⟩
    · rw [heq]
      cases hform : r.form t with
      | int | char | bool | ptr | void | named => rfl
      | arr l e =>
        have he : e < r.size := hr.form ht (by simp [hform, Ty.targets])
        simp only [ih he]
      | record fields =>
        have hfields : ∀ f ∈ fields, r'.bytesTo n f.2 = r.bytesTo n f.2 := fun f hf =>
          ih (hr.form ht (by simpa [hform, Ty.targets] using ⟨f.1, hf⟩))
        refine Option.ext fun b =>
          ⟨(foldlM_checked_mono · fun f hf c hc => ?_), (foldlM_checked_mono · fun f hf c hc => ?_)⟩
        · rwa [← hfields f hf]
        · rwa [hfields f hf]
    · rw [hname, hname']

theorem Widens.bytes? (h : r.Widens r') (hr : r.Closed) (ht : t < r.size) (hb : r.bytes? t = some b) :
    r'.bytes? t = some b :=
  bytesTo_of_le ((h.bytesTo hr _ ht).trans hb) (Nat.succ_le_succ h.size)

theorem length_pos_of_form (hsolid : ∀ i, (r.get i).Solid) {l : Int} {e : TypeId} (h : r.form t = .arr l e) :
    0 < l := by
  have hget := hsolid (r.actual t)
  rwa [show r.get (r.actual t) = _ from h] at hget

theorem bytesTo_nonneg (hsolid : ∀ i, (r.get i).Solid) (h : r.bytesTo n t = some b) : 0 ≤ b := by
  induction n generalizing t b with
  | zero => cases h
  | succ n ih =>
    obtain ⟨rfl, -⟩ | ⟨rfl, -⟩ | ⟨l, e, c, hform, hc, -, rfl⟩ | ⟨fields, hform, hb⟩ := bytesTo_cases h
    · decide
    · exact Int.le_refl _
    · exact Int.mul_nonneg (Int.le_of_lt (length_pos_of_form hsolid hform)) (ih hc)
    · simpa using le_of_foldlM_checked hb fun f _ c hc => ih hc

theorem bytes_nonneg (hsolid : ∀ i, (r.get i).Solid) (t : TypeId) : 0 ≤ r.bytes t := by
  unfold bytes
  cases h : r.bytes? t with
  | none => decide
  | some b => exact bytesTo_nonneg hsolid h

/-- A type is in another, or it is the other. -/
def Within (r : Registry) (u t : TypeId) : Prop := Relation.ReflTransGen (fun t u => r.PartOf u t) t u

theorem within_follow (n : Nat) : r.Within (r.follow n t) t := by
  induction n generalizing t with
  | zero => exact .refl
  | succ n ih =>
    rw [follow_succ]
    cases hnext : r.next? t with
    | none => exact .refl
    | some d => exact .head (partOf_of_next? hnext) ih

theorem Widens.within_lt (h : r.Widens r') (hr : r.Closed) (ht : t < r.size) (hu : r'.Within u t) : u < r.size := by
  induction hu with
  | refl => exact ht
  | @tail u v _ hpart ih =>
    refine hr u ih v ?_
    rw [PartOf, parts, h.get u ih] at hpart
    split at hpart <;> simp_all [Ty.targets]

theorem isVoid_eq_false : r.isVoid t = false ↔ r.form t ≠ .void := by simp [isVoid]

/-- A type with nothing void in it takes a word at least. -/
theorem le_bytesTo (hsolid : ∀ i, (r.get i).Solid)
    (hvoid : ∀ u, r.Within u t → r.isVoid u = false ∧ ∀ name d, r.form u ≠ .named name d) (h : r.bytesTo n t = some b) :
    Word.size ≤ b := by
  induction n generalizing t b with
  | zero => cases h
  | succ n ih =>
    have hpart : ∀ u, u ∈ r.parts (r.actual t) → ∀ v, r.Within v u → r.isVoid v = false ∧
        ∀ name d, r.form v ≠ .named name d := fun u hu v hv => hvoid v (((within_follow r.size).tail hu).trans hv)
    obtain ⟨rfl, -⟩ | ⟨rfl, hform | ⟨name, d, hform⟩⟩ | ⟨l, e, c, hform, hc, -, rfl⟩ | ⟨fields, hform, hb⟩ :=
      bytesTo_cases h
    · exact Int.le_refl _
    · exact absurd hform (isVoid_eq_false.mp (hvoid t .refl).1)
    · exact absurd hform ((hvoid t .refl).2 name d)
    · have hc' := ih (hpart e (by simp [parts, show r.get (r.actual t) = _ from hform])) hc
      have hl := length_pos_of_form hsolid hform
      have hword : (0 : Int) ≤ Word.size := by decide
      nlinarith
    · have hle := le_of_foldlM_checked hb fun f hf c hc => ih (hpart f.2 (by
        simpa [parts, show r.get (r.actual t) = _ from hform] using ⟨f.1, hf⟩)) hc
      have hne : 0 < fields.length := by
        have hget := hsolid (r.actual t)
        rw [show r.get (r.actual t) = _ from hform] at hget
        exact length_pos_iff.mpr hget.1
      have hword : (0 : Int) ≤ Word.size := by decide
      have hlength : (1 : Int) ≤ fields.length := by exact_mod_cast hne
      nlinarith

theorem word_le_bytes (hsolid : ∀ i, (r.get i).Solid)
    (hvoid : ∀ u, r.Within u t → r.isVoid u = false ∧ ∀ name d, r.form u ≠ .named name d) :
    Word.size ≤ r.bytes t := by
  unfold bytes
  cases h : r.bytes? t with
  | none => decide
  | some b => exact le_bytesTo hsolid hvoid h

end Registry
end MmixCompiler
