import MmixCompiler.Proofs.Register.Coloring
import Mathlib.Data.List.Perm.Subperm

/-! Which temporaries a colouring may spill. Only those that had too many neighbours when they were put
on the stack are, and then every temporary left had as many and none had more. So in a cluster, whose
members have the same neighbours outside of it, the order in which members are put there can be read
off the cores of the cluster alone. -/

namespace MmixCompiler

open Mmix List

/-- How many of several vertices are next to one. -/
def degreeIn (near : Nat → Nat → Bool) (C : List Nat) (v : Nat) : Nat := C.countP (near v)

/-- Takes away the vertices with fewer than `j` neighbours, at most `n` times. -/
def peel (near : Nat → Nat → Bool) (j : Nat) : Nat → List Nat → List Nat
  | 0, C => C
  | n + 1, C =>
    let C' := C.filter fun v => j ≤ degreeIn near C v
    if C'.length = C.length then C else peel near j n C'

/-- The largest part in which every vertex has `j` neighbours. -/
def core (near : Nat → Nat → Bool) (j : Nat) (C : List Nat) : List Nat := peel near j C.length C

/-- Vertices with the most neighbours, which for a small `j` have to be all others. -/
def exposed (near : Nat → Nat → Bool) (j : Nat) (C : List Nat) : List Nat :=
  C.filter fun v => C.all (fun w => degreeIn near C w ≤ degreeIn near C v) &&
    (decide (2 ≤ j) || decide (C.length ≤ degreeIn near C v + 1))

/-- Vertices that can be taken one after the other, each exposed in a core of what is left and at
most `n` of them; what can be taken later is not told apart. The cores never get looser. -/
def picks (near : Nat → Nat → Bool) : Nat → Nat → List Nat → List Nat
  | 0, _, C => C
  | n + 1, j, C =>
    ((List.range 3).filter (j ≤ ·)).flatMap fun j =>
      (exposed near j (core near j C)).flatMap fun v =>
        v :: picks near n j ((core near j C).erase v)

section
variable {near : Nat → Nat → Bool} {j n v : Nat} {C D : List Nat}

theorem degreeIn_le (hD : D.Nodup) (h : D ⊆ C) : degreeIn near D v ≤ degreeIn near C v := (hD.subperm h).countP_le _

theorem degreeIn_perm (h : D.Perm C) : degreeIn near D v = degreeIn near C v := h.countP_eq _

theorem peel_sublist : (peel near j n C).Sublist C := by
  induction n generalizing C with
  | zero => exact List.Sublist.refl C
  | succ n ih =>
    unfold peel
    simp only
    split
    · exact List.Sublist.refl C
    · exact ih.trans filter_sublist

theorem le_degreeIn_peel (hn : C.length ≤ n) (hv : v ∈ peel near j n C) : j ≤ degreeIn near (peel near j n C) v := by
  induction n generalizing C with
  | zero =>
    rw [length_eq_zero_iff.mp (Nat.le_zero.mp hn)] at hv
    exact absurd hv not_mem_nil
  | succ n ih =>
    unfold peel at hv ⊢
    simp only at hv ⊢
    split at hv
    · rename_i hlen
      rw [if_pos hlen]
      simpa using length_filter_eq_length_iff.mp hlen v hv
    · rename_i hlen
      rw [if_neg hlen]
      have := length_filter_le (fun v => decide (j ≤ degreeIn near C v)) C
      exact ih (by omega) hv

theorem subset_peel (hnodup : D.Nodup) (hD : ∀ v ∈ D, j ≤ degreeIn near D v) (h : D ⊆ C) : D ⊆ peel near j n C := by
  induction n generalizing C with
  | zero => exact h
  | succ n ih =>
    unfold peel
    simp only
    split
    · exact h
    · refine ih fun v hv => mem_filter.mpr ⟨h hv, ?_⟩
      exact decide_eq_true (Nat.le_trans (hD v hv) (degreeIn_le hnodup h))

theorem core_subset : core near j C ⊆ C := peel_sublist.subset

theorem nodup_core (h : C.Nodup) : (core near j C).Nodup := h.sublist peel_sublist

theorem le_degreeIn_core (hv : v ∈ core near j C) : j ≤ degreeIn near (core near j C) v :=
  le_degreeIn_peel (Nat.le_refl _) hv

theorem subset_core (hnodup : D.Nodup) (hD : ∀ v ∈ D, j ≤ degreeIn near D v) (h : D ⊆ C) :
    D ⊆ core near j C := subset_peel hnodup hD h

theorem core_subset_core {i : Nat} (hij : i ≤ j) (hD : D.Nodup) (h : D ⊆ C) : core near j D ⊆ core near i C :=
  subset_core (nodup_core hD) (fun _ hv => Nat.le_trans hij (le_degreeIn_core hv)) (List.Subset.trans core_subset h)

theorem mem_exposed : v ∈ exposed near j C ↔ v ∈ C ∧
    (∀ w ∈ C, degreeIn near C w ≤ degreeIn near C v) ∧ (2 ≤ j ∨ C.length ≤ degreeIn near C v + 1) := by
  simp [exposed, mem_filter]

theorem mem_picks {i w : Nat} (hj : j ≤ i) (hi : i < 3) (hv : v ∈ exposed near i (core near i C))
    (hw : w = v ∨ w ∈ picks near n i ((core near i C).erase v)) : w ∈ picks near (n + 1) j C := by
  refine mem_flatMap.mpr ⟨i, by simp [hi, hj], mem_flatMap.mpr ⟨v, hv, ?_⟩⟩
  exact mem_cons.mpr hw

end

/-- How many of several temporaries are neighbours of one. -/
def Interference.degreeAmong (g : Interference) (H : List Temp) (t : Temp) : Nat :=
  H.countP fun u => u ∈ g.neighbours t

namespace Interference

/-- Temporaries with the number of their neighbours among them. -/
def counted (g : Interference) (H : List Temp) : Degrees := H.map fun t => (t, g.degreeAmong H t)

section
variable {g : Interference} {registers n d : Nat} {H : List Temp} {t u : Temp}

theorem Proper.degreeAmong_nodes (h : g.Proper) : g.degreeAmong g.nodes t = g.degree t := by
  have hnodes : g.nodes.Nodup := g.adjacent.nodup_keys
  rw [degreeAmong, countP_eq_length_filter, degree]
  refine List.Perm.length_eq ((perm_ext_iff_of_nodup (hnodes.filter _) (h.nodup t)).mpr fun u => ?_)
  simp only [mem_filter, decide_eq_true_eq]
  exact ⟨And.right, fun hu => ⟨h.nodes hu, hu⟩⟩

theorem Proper.drop_counted (h : g.Proper) (hH : H.Nodup) (ht : t ∈ H) :
    g.drop t (g.counted H) = g.counted (H.erase t) := by
  have hperm := perm_cons_erase ht
  have hfilter : H.filter (fun u => u ≠ t) = H.erase t := by
    rw [hH.erase_eq_filter]
    exact filter_congr fun u _ => Bool.eq_iff_iff.mpr (by simp)
  simp only [drop, counted, filter_map, map_map, Function.comp_def]
  rw [hfilter]
  refine map_congr_left fun u _ => ?_
  have hcount : g.degreeAmong H u = g.degreeAmong (H.erase t) u +
      if t ∈ g.neighbours u then 1 else 0 := by
    rw [degreeAmong, hperm.countP_eq, countP_cons]
    simp [degreeAmong]
  have hsymm : u ∈ g.neighbours t ↔ t ∈ g.neighbours u := ⟨h.symm, h.symm⟩
  by_cases hu : u ∈ g.neighbours t
  · simp [hu, hcount, hsymm.mp hu]
  · simp [hu, hcount, mt hsymm.mpr hu]

theorem least_le (a : Temp × Nat) (rest : Degrees) : ∀ e ∈ a :: rest, (least a rest).2 ≤ e.2 := by
  intro e he
  have hfirst := not_before_least a rest e he
  grind [before]

theorem le_greatest (a : Temp × Nat) (rest : Degrees) : ∀ e ∈ a :: rest, e.2 ≤ (greatest a rest).2 := by
  induction rest generalizing a with
  | nil => simp [greatest]
  | cons b rest ih =>
    have hle := ih (if before a b then b else a)
    simp only [greatest, foldl_cons, forall_mem_cons] at hle ⊢
    have := hle.1
    refine ⟨?_, ?_, hle.2⟩ <;> grind [before]

/-- If even the next temporary has many neighbours then all have, and it has the most. -/
theorem pick_spec (registers : Nat) (a : Temp × Nat) (rest : Degrees) (h : registers ≤ (pick registers a rest).2) :
    ∀ e ∈ a :: rest, registers ≤ e.2 ∧ e.2 ≤ (pick registers a rest).2 := by
  intro e he
  have hleast := least_le a rest e he
  unfold pick at h ⊢
  simp only at h ⊢
  split at h
  · omega
  · rename_i hmany
    rw [if_neg hmany]
    exact ⟨by omega, le_greatest a rest e he⟩

theorem Proper.simplify_counted (h : g.Proper) (registers n : Nat) (hH : H.Nodup) (hne : H ≠ []) :
    ∃ t ∈ H, simplify g registers (n + 1) (g.counted H) =
        (t, g.degreeAmong H t) :: simplify g registers n (g.counted (H.erase t)) ∧
      (registers ≤ g.degreeAmong H t → ∀ u ∈ H, registers ≤ g.degreeAmong H u ∧
        g.degreeAmong H u ≤ g.degreeAmong H t) := by
  obtain ⟨a, rest, rfl⟩ := exists_cons_of_ne_nil hne
  set e := pick registers (a, g.degreeAmong (a :: rest) a) (rest.map fun t => (t, g.degreeAmong (a :: rest) t)) with he
  have hmem : e ∈ g.counted (a :: rest) := pick_mem
  obtain ⟨t, ht, het⟩ := mem_map.mp hmem
  refine ⟨t, ht, ?_, fun hmany u hu => ?_⟩
  · rw [← h.drop_counted hH ht]
    show e :: simplify g registers n (g.drop e.1 _) = _
    rw [← het]
    rfl
  · have hspec : ∀ e' ∈ g.counted (a :: rest), registers ≤ e'.2 ∧ e'.2 ≤ e.2 :=
      pick_spec registers _ _ (by rw [← he, ← het]; exact hmany)
    rw [← het] at hspec
    exact hspec (u, g.degreeAmong (a :: rest) u) (mem_map.mpr ⟨u, hu, rfl⟩)

theorem Proper.mem_simplify (h : g.Proper) (hH : H.Nodup) {e : Temp × Nat}
    (he : e ∈ simplify g registers n (g.counted H)) : e.1 ∈ H := by
  induction n generalizing H with
  | zero => simp [simplify] at he
  | succ n ih =>
    rcases eq_or_ne H [] with rfl | hne
    · simp [counted, simplify] at he
    obtain ⟨t, ht, hstep, -⟩ := h.simplify_counted registers n hH hne
    rw [hstep] at he
    rcases mem_cons.mp he with rfl | he
    · exact ht
    · exact mem_of_mem_erase (ih (hH.erase t) he)

/-- A temporary is put on the stack with the number of its neighbours that are put there later. -/
theorem Proper.rank_simplify (h : g.Proper) (hH : H.Nodup) (hn : n = H.length)
    {pre post : Degrees} (heq : simplify g registers n (g.counted H) = pre ++ (t, d) :: post) :
    d = g.degreeAmong (post.map Prod.fst) t := by
  induction n generalizing H pre with
  | zero => simp [simplify] at heq
  | succ n ih =>
    obtain ⟨u, hu, hstep, -⟩ := h.simplify_counted registers n hH (ne_nil_of_length_eq_add_one hn.symm)
    have hlen : n = (H.erase u).length := by rw [length_erase_of_mem hu]; omega
    rw [hstep] at heq
    cases pre with
    | cons e pre => exact ih (hH.erase u) hlen (List.cons.inj heq).2
    | nil =>
      obtain ⟨he, hpost⟩ := List.cons.inj heq
      obtain ⟨rfl, rfl⟩ := Prod.mk.inj he
      have hfst : (g.counted (H.erase u)).map Prod.fst = H.erase u := by
        simp [counted, Function.comp_def]
      have hperm : (post.map Prod.fst).Perm (H.erase u) := by
        have hsize : n = (g.counted (H.erase u)).length := by simp [counted, hlen]
        have h : ((simplify g registers n _).map Prod.fst).Perm _ := simplify_perm hsize (hfst.symm ▸ hH.erase u)
        rwa [hpost, hfst] at h
      rw [degreeAmong, (perm_cons_erase hu).countP_eq, countP_cons_of_neg, degreeAmong, hperm.countP_eq]
      simp [h.irrefl u]

theorem le_taken {colors : Registers} (h : g.free? registers colors t = none) :
    registers ≤ (g.neighbours t).countP fun u => colors[u]?.isSome := by
  simp only [free?, find?_eq_none] at h
  rw [← length_filterMap_eq_countP]
  generalize (g.neighbours t).filterMap (fun u => colors[u]?) = taken at h ⊢
  by_contra hlt
  have hsub : List.range (taken.length + 1) ⊆ taken := fun r hr => by
    simpa using h r (by simp only [mem_range] at hr ⊢; omega)
  have := (nodup_range.subperm hsub).length_le
  rw [length_range] at this
  omega

/-- What finds no register has as many neighbours before it as there are registers. -/
theorem crowd_of_assign {ts : List Temp} {colors : Registers}
    (h : t ∈ (g.assign registers ts colors).2) : ∃ ts₁ ts₂, ts = ts₁ ++ t :: ts₂ ∧
      registers ≤ (g.neighbours t).countP fun u => colors[u]?.isSome || u ∈ ts₁ := by
  induction ts generalizing colors with
  | nil => simp [assign] at h
  | cons u us ih =>
    unfold assign at h
    split at h
    · obtain ⟨ts₁, ts₂, rfl, hle⟩ := ih h
      refine ⟨u :: ts₁, ts₂, rfl, Nat.le_trans hle (countP_mono_left fun w _ hw => ?_)⟩
      rw [getElem?_insert_color] at hw
      grind
    · rename_i hfree
      rcases mem_cons.mp h with rfl | h
      · exact ⟨[], us, rfl, by simpa using le_taken hfree⟩
      · obtain ⟨ts₁, ts₂, rfl, hle⟩ := ih h
        refine ⟨u :: ts₁, ts₂, rfl, Nat.le_trans hle (countP_mono_left fun w _ hw => ?_)⟩
        grind

theorem Proper.order_eq (h : g.Proper) :
    g.order registers = simplify g registers g.nodes.length (g.counted g.nodes) := by
  simp [order, counted, h.degreeAmong_nodes]

/-- Only what had too many neighbours when it was put on the stack is spilled. -/
theorem Proper.candidate_of_spill (h : g.Proper) (ht : t ∈ (g.color registers).spills) :
    ∃ d, (t, d) ∈ g.order registers ∧ registers ≤ d := by
  obtain ⟨ts₁, ts₂, hts, hle⟩ := crowd_of_assign (mem_spills_color.mp ht)
  have hsplit : (g.order registers).map Prod.fst = ts₂.reverse ++ t :: ts₁.reverse := by
    rw [stack_eq h.nodup, map_reverse] at hts
    simpa using congrArg List.reverse hts
  obtain ⟨pre, rest, horder, -, hrest⟩ := map_eq_append_iff.mp hsplit
  obtain ⟨⟨t', d⟩, post, rfl, rfl, hpost⟩ := map_eq_cons_iff.mp hrest
  refine ⟨d, by rw [horder]; simp, ?_⟩
  have hrank : d = g.degreeAmong (post.map Prod.fst) t' :=
    h.rank_simplify g.adjacent.nodup_keys rfl (h.order_eq ▸ horder)
  have hcount : (g.neighbours t').countP (fun u => (∅ : Registers)[u]?.isSome || u ∈ ts₁) ≤
      g.degreeAmong ts₁.reverse t' := by
    rw [degreeAmong, countP_eq_length_filter, countP_eq_length_filter]
    refine (((h.nodup t').filter _).subperm fun u hu => ?_).length_le
    simpa [and_comm] using hu
  rw [hrank, hpost]
  exact Nat.le_trans hle hcount

/-- No two neighbours have the same register. -/
def Distinct (g : Interference) (colors : Registers) : Prop :=
  ∀ (a b : Temp) r, b ∈ g.neighbours a → colors[a]? = some r → colors[b]? ≠ some r

theorem Proper.distinct_assign (h : g.Proper) {ts : List Temp} {colors : Registers}
    (hcolors : g.Distinct colors) : g.Distinct (g.assign registers ts colors).1 := by
  induction ts generalizing colors with
  | nil => exact hcolors
  | cons u us ih =>
    unfold assign
    split
    · rename_i r hr
      refine ih fun a b r' hb ha hb' => ?_
      have hfree := (free?_spec hr).2
      rw [getElem?_insert_color] at ha hb'
      split at ha <;> split at hb'
      · subst a b; exact h.irrefl u hb
      · subst a; exact hfree b hb (Option.some.inj ha ▸ hb')
      · subst b; exact hfree a (h.symm hb) (Option.some.inj hb' ▸ ha)
      · exact hcolors a b r' hb ha hb'
    · exact ih hcolors

theorem Proper.conflict?_eq_none (h : g.Proper) {colors : Registers}
    (hcolors : (g.color registers).registers? = some colors) : g.conflict? colors = none := by
  simp only [conflict?, findSome?_eq_none_iff, Option.map_eq_none_iff, find?_eq_none]
  intro a ha b hb
  obtain ⟨r, -, hr⟩ := h.color_spec hcolors ha
  have hne : colors[b]? ≠ some r := by
    rw [colors_eq_of_color hcolors] at hr ⊢
    exact h.distinct_assign (by simp [Distinct]) a b r hb hr
  rw [decide_eq_true_eq, hr]
  exact fun h => hne h.symm

end
end Interference

/-- Temporaries that have the same neighbours outside, which are neighbours of each other. Members go
by number. -/
structure Cluster (g : Interference) (name : Nat → Temp) (V : List Nat) (near : Nat → Nat → Bool)
    (A : List Temp) : Prop where
  nodup : V.Nodup
  nodupA : A.Nodup
  nodes : ∀ v ∈ V, name v ∈ g.nodes
  inj : ∀ u ∈ V, ∀ v ∈ V, name u = name v → u = v
  apart : ∀ v ∈ V, name v ∉ A
  neighbours : ∀ v ∈ V, ∀ t, t ∈ g.neighbours (name v) ↔ t ∈ A ∨ ∃ u ∈ V, near v u ∧ name u = t
  clique : ∀ a ∈ A, ∀ b ∈ A, a ≠ b → b ∈ g.neighbours a

namespace Cluster

variable {name : Nat → Temp} {V : List Nat} {near : Nat → Nat → Bool} {A H : List Temp}

def rest (name : Nat → Temp) (V : List Nat) (H : List Temp) : List Nat := V.filter fun v => name v ∈ H

/-- How many of the neighbours outside are among temporaries. -/
def outside (A H : List Temp) : Nat := A.countP fun a => a ∈ H

theorem mem_rest {v : Nat} : v ∈ rest name V H ↔ v ∈ V ∧ name v ∈ H := by simp [rest]

variable {g : Interference} {registers n : Nat} {v : Nat} {a t : Temp}

theorem nodup_names (h : Cluster g name V near A) {C : List Nat} (hC : C.Nodup) (hsub : C ⊆ V) : (C.map name).Nodup :=
  hC.map_on fun u hu w hw heq => h.inj u (hsub hu) w (hsub hw) heq

theorem degreeAmong_eq (h : Cluster g name V near A) (hH : H.Nodup) (hv : v ∈ V) :
    g.degreeAmong H (name v) = outside A H + degreeIn near (rest name V H) v := by
  have hsub : (rest name V H).filter (near v) ⊆ V := fun u hu => (mem_rest.mp (mem_filter.mp hu).1).1
  have hperm : (H.filter fun t => t ∈ g.neighbours (name v)).Perm
      (A.filter (fun a => a ∈ H) ++ ((rest name V H).filter (near v)).map name) := by
    refine (perm_ext_iff_of_nodup (hH.filter _) (nodup_append'.mpr ⟨h.nodupA.filter _,
      h.nodup_names ((h.nodup.filter _).filter _) hsub, ?_⟩)).mpr fun t => ?_
    · intro t ht ht'
      obtain ⟨u, hu, rfl⟩ := mem_map.mp ht'
      exact h.apart u (hsub hu) (mem_filter.mp ht).1
    · simp only [mem_filter, mem_append, mem_map, decide_eq_true_eq, h.neighbours v hv]
      grind
  have := hperm.length_eq
  rw [length_append, length_map] at this
  rw [Interference.degreeAmong, outside, degreeIn, countP_eq_length_filter,
    countP_eq_length_filter, countP_eq_length_filter, this]

/-- A neighbour outside is next to all others outside and to all members. -/
theorem le_degreeAmong (h : Cluster g name V near A) (hg : g.Proper) (ha : a ∈ A) (haH : a ∈ H) :
    outside A H + (rest name V H).length ≤ g.degreeAmong H a + 1 := by
  have hmem : a ∈ A.filter fun b => b ∈ H := mem_filter.mpr ⟨ha, decide_eq_true haH⟩
  have hnodup : ((A.filter fun b => b ∈ H).erase a ++ (rest name V H).map name).Nodup := by
    refine nodup_append'.mpr ⟨(h.nodupA.filter _).erase a,
      h.nodup_names (h.nodup.filter _) (filter_subset_self _), fun t ht ht' => ?_⟩
    obtain ⟨u, hu, rfl⟩ := mem_map.mp ht'
    exact h.apart u (mem_rest.mp hu).1 (mem_filter.mp (mem_of_mem_erase ht)).1
  have hsub : (A.filter fun b => b ∈ H).erase a ++ (rest name V H).map name ⊆
      H.filter fun t => t ∈ g.neighbours a := fun t ht => by
    rcases mem_append.mp ht with ht | ht
    · obtain ⟨hne, ht⟩ := (h.nodupA.filter _).mem_erase_iff.mp ht
      obtain ⟨htA, htH⟩ := mem_filter.mp ht
      exact mem_filter.mpr ⟨by simpa using htH, by simpa using h.clique a ha t htA (Ne.symm hne)⟩
    · obtain ⟨u, hu, rfl⟩ := mem_map.mp ht
      obtain ⟨hu, huH⟩ := mem_rest.mp hu
      exact mem_filter.mpr ⟨huH, by simpa using hg.symm ((h.neighbours u hu a).mpr (.inl ha))⟩
  have hle := (hnodup.subperm hsub).length_le
  rw [length_append, length_erase_of_mem hmem, length_map] at hle
  rw [outside, countP_eq_length_filter, Interference.degreeAmong, countP_eq_length_filter]
  have := length_pos_of_mem hmem
  omega

variable {C : List Nat} {j fuel : Nat}

theorem outside_erase_le : outside A (H.erase t) ≤ outside A H := countP_mono_left fun a _ ha => by
    simpa using mem_of_mem_erase (of_decide_eq_true ha)

section

variable (h : Cluster g name V near A)

include h

/-- If all of the temporaries left have many neighbours, the members among them are a core. -/
theorem perm_core (hH : H.Nodup) (hC : C.Nodup) (hCV : C ⊆ V)
    (hrest : rest name V H ⊆ C) (hkept : ∀ v ∈ core near (registers - outside A H) C, name v ∈ H)
    (hmany : ∀ u ∈ H, registers ≤ g.degreeAmong H u) :
    (core near (registers - outside A H) C).Perm (rest name V H) := by
  refine (perm_ext_iff_of_nodup (nodup_core hC) (h.nodup.filter _)).mpr fun v => ?_
  refine ⟨fun hv => mem_rest.mpr ⟨hCV (core_subset hv), hkept v hv⟩, fun hv => ?_⟩
  refine subset_core (h.nodup.filter _) (fun u hu => ?_) hrest hv
  obtain ⟨hu, huH⟩ := mem_rest.mp hu
  have := hmany _ huH
  rw [h.degreeAmong_eq hH hu] at this
  exact Nat.sub_le_of_le_add (by rwa [Nat.add_comm])

theorem exposed_of_most (hg : g.Proper) (hregisters : 2 ≤ registers)
    (hH : H.Nodup) {D : List Nat} (hD : D.Perm (rest name V H)) (hv : v ∈ V) (hvH : name v ∈ H)
    (hmost : ∀ u ∈ H, g.degreeAmong H u ≤ g.degreeAmong H (name v)) :
    v ∈ exposed near (registers - outside A H) D := by
  refine mem_exposed.mpr ⟨hD.mem_iff.mpr (mem_rest.mpr ⟨hv, hvH⟩), fun w hw => ?_, ?_⟩
  · obtain ⟨hw, hwH⟩ := mem_rest.mp (hD.mem_iff.mp hw)
    have := hmost _ hwH
    rw [h.degreeAmong_eq hH hw, h.degreeAmong_eq hH hv] at this
    rw [degreeIn_perm hD, degreeIn_perm hD]
    omega
  · rcases Nat.eq_zero_or_pos (outside A H) with hzero | hpos
    · exact .inl (by omega)
    · obtain ⟨a, ha, haH⟩ := countP_pos_iff.mp hpos
      have haH : a ∈ H := of_decide_eq_true haH
      have hle := h.le_degreeAmong hg ha haH
      have := hmost a haH
      rw [h.degreeAmong_eq hH hv] at this
      rw [degreeIn_perm hD, hD.length_eq]
      exact .inr (by omega)

/-- Members that are put on the stack with too many neighbours are among the picks of the cluster. The
list `C` holds the members that may be left, and none of its cores has lost one. -/
theorem mem_picks_of_simplify (hg : g.Proper)
    (hregisters : 2 ≤ registers) (hcore : core near 3 V = []) (hH : H.Nodup) (hC : C.Nodup)
    (hCV : C ⊆ V) (hrest : rest name V H ⊆ C) (hj : j ≤ registers - outside A H)
    (hkept : ∀ i, registers - outside A H ≤ i → ∀ v ∈ core near i C, name v ∈ H) {d : Nat}
    (hmem : (name v, d) ∈ Interference.simplify g registers n (g.counted H)) (hd : registers ≤ d)
    (hv : v ∈ V) : v ∈ picks near fuel j C := by
  induction n generalizing H C j fuel with
  | zero => simp [Interference.simplify] at hmem
  | succ n ih =>
    cases fuel with
    | zero => exact hrest (mem_rest.mpr ⟨hv, hg.mem_simplify hH hmem⟩)
    | succ fuel =>
      rcases eq_or_ne H [] with rfl | hne
      · simp [Interference.counted, Interference.simplify] at hmem
      obtain ⟨t, ht, hstep, hmany⟩ := hg.simplify_counted registers n hH hne
      have hout : outside A (H.erase t) ≤ outside A H := outside_erase_le
      rw [hstep] at hmem
      by_cases hpick : registers ≤ g.degreeAmong H t ∧ ∃ w ∈ V, name w = t
      · obtain ⟨hpick, w, hw, rfl⟩ := hpick
        have hperm := h.perm_core hH hC hCV hrest (hkept _ (Nat.le_refl _)) fun u hu =>
          (hmany hpick u hu).1
        have hexposed := h.exposed_of_most hg hregisters hH hperm hw ht fun u hu =>
          (hmany hpick u hu).2
        have hlt : registers - outside A H < 3 := by
          by_contra hge
          have := core_subset_core (Nat.le_of_not_lt hge) hC hCV (mem_exposed.mp hexposed).1
          rw [hcore] at this
          exact absurd this not_mem_nil
        refine mem_picks hj hlt hexposed ?_
        rcases mem_cons.mp hmem with heq | hmem
        · exact .inl (h.inj v hv w hw (Prod.mk.inj heq).1)
        · have hnodup : (core near (registers - outside A H) C).Nodup := nodup_core hC
          have hsub : (core near (registers - outside A H) C).erase w ⊆ C :=
            List.Subset.trans erase_subset core_subset
          refine .inr (ih (hH.erase _) (hnodup.erase w) (List.Subset.trans hsub hCV) ?_ (by omega) ?_ hmem)
          · intro u hu
            obtain ⟨hu, huH⟩ := mem_rest.mp hu
            obtain ⟨hne, huH⟩ := hH.mem_erase_iff.mp huH
            refine hnodup.mem_erase_iff.mpr ⟨fun heq => hne (congrArg name heq), ?_⟩
            exact hperm.mem_iff.mpr (mem_rest.mpr ⟨hu, huH⟩)
          · intro i _ u hu
            obtain ⟨hne, hu⟩ := hnodup.mem_erase_iff.mp (core_subset hu)
            obtain ⟨hu, huH⟩ := mem_rest.mp (hperm.mem_iff.mp hu)
            exact hH.mem_erase_iff.mpr ⟨fun heq => hne (h.inj u hu w hw heq), huH⟩
      · rcases mem_cons.mp hmem with heq | hmem
        · obtain ⟨hname, rfl⟩ := Prod.mk.inj heq
          exact absurd ⟨hd, v, hv, hname⟩ hpick
        refine ih (hH.erase t) hC hCV ?_ (by omega) ?_ hmem
        · intro u hu
          obtain ⟨hu, huH⟩ := mem_rest.mp hu
          exact hrest (mem_rest.mpr ⟨hu, mem_of_mem_erase huH⟩)
        · -- a member of the core has too many neighbours to be taken
          intro i hi u hu
          have hkept := hkept i (by omega)
          refine hH.mem_erase_iff.mpr ⟨fun heq => hpick ⟨?_, u, hCV (core_subset hu), heq⟩, hkept u hu⟩
          have hle : degreeIn near (core near i C) u ≤ degreeIn near (rest name V H) u :=
            degreeIn_le (nodup_core hC) fun w hw =>
              mem_rest.mpr ⟨hCV (core_subset hw), hkept w hw⟩
          have := le_degreeIn_core hu
          rw [← heq, h.degreeAmong_eq hH (hCV (core_subset hu))]
          omega

theorem mem_picks_of_spill (hg : g.Proper)
    (hregisters : 2 ≤ registers) (hcore : core near 3 V = []) (hv : v ∈ V)
    (hspill : name v ∈ (g.color registers).spills) : v ∈ picks near fuel 0 V := by
  obtain ⟨d, hd, hle⟩ := hg.candidate_of_spill hspill
  exact h.mem_picks_of_simplify hg hregisters hcore g.adjacent.nodup_keys h.nodup
    (List.Subset.refl V) (filter_subset_self _) (Nat.zero_le _)
    (fun i _ u hu => h.nodes u (core_subset hu)) (hg.order_eq ▸ hd) hle hv

end

end Cluster
end MmixCompiler
