import Mathlib.Combinatorics.SimpleGraph.Acyclic
import MmixCompiler.Proofs.Register.Degeneracy
import MmixCompiler.Proofs.Register.Growth

/-! Code all of whose temporaries have moved to the frame. What is left of them lives within the strand of one
operation, and each that is left interferes with at most one that was taken from the supply before it. So the
interference graph is a forest, and two registers are enough. -/

namespace MmixCompiler

open Mmix Fresh Footprint List

variable {x : Strand} {index : Nat}

namespace Interference

variable {g : Interference} {registers : Nat}

/-- Interference as a graph. -/
def graph (g : Interference) : SimpleGraph Temp := .fromRel fun t u => g.interferes t u

/-- A temporary interferes with at most one of those with smaller numbers. -/
def OneOlder (g : Interference) : Prop :=
  ∀ t u v, u ∈ g.neighbours t → v ∈ g.neighbours t → u < t → v < t → u = v

theorem Proper.adj_iff (hg : g.Proper) {t u : Temp} : g.graph.Adj t u ↔ u ∈ g.neighbours t := by
  rw [graph, SimpleGraph.fromRel_adj, interferes_iff, interferes_iff]
  constructor
  · rintro ⟨-, h | h⟩
    · exact h
    · exact hg.symm h
  · exact fun h => ⟨fun heq => hg.irrefl t (heq ▸ h), .inl h⟩

/-- The youngest temporary of a cycle would have two older neighbours. -/
theorem OneOlder.isAcyclic (h : g.OneOlder) (hg : g.Proper) : g.graph.IsAcyclic := by
  intro v c hc
  obtain ⟨m, hm, hmax⟩ := c.support.toFinset.exists_max_image id ⟨v, by simp⟩
  have hmem : m ∈ c.support := mem_toFinset.mp hm
  let c' := c.rotate m hmem
  have hcycle : c'.IsCycle := hc.rotate hmem
  have hle : ∀ w ∈ c'.support, w ≤ m := fun w hw =>
    hmax w (mem_toFinset.mpr ((c.mem_support_rotate_iff m hmem).mp hw))
  have hsnd := c'.adj_snd hcycle.not_nil
  have hpen := c'.adj_penultimate hcycle.not_nil
  refine hcycle.snd_ne_penultimate (h m _ _ (hg.adj_iff.mp hsnd) (hg.adj_iff.mp hpen.symm) ?_ ?_)
  · exact lt_of_le_of_ne (hle _ (by simp)) hsnd.ne'
  · exact lt_of_le_of_ne (hle _ (by simp)) hpen.ne

/-- The youngest temporary of a part has one neighbour there at most. -/
theorem OneOlder.degenerate (h : g.OneOlder) (hg : g.Proper) (hregisters : 2 ≤ registers) : g.Degenerate registers := by
  intro H hne hH
  obtain ⟨m, hm, hmax⟩ := H.exists_max_image id hne
  refine ⟨m, hm, Nat.lt_of_le_of_lt (Finset.card_le_one.mpr fun u hu v hv => ?_) hregisters⟩
  have holder : ∀ w ∈ H.filter (fun u => g.interferes m u), w ∈ g.neighbours m ∧ w < m := fun w hw => by
    obtain ⟨hw, hmw⟩ := Finset.mem_filter.mp hw
    rw [interferes_iff] at hmw
    exact ⟨hmw, lt_of_le_of_ne (hmax w hw) fun heq => hg.irrefl m (heq ▸ hmw)⟩
  exact h m u v (holder u hu).1 (holder v hv).1 (holder u hu).2 (holder v hv).2

end Interference

namespace Shape

/-- Nothing is needed from outside of the track, nor where a label may stand. What is written is read behind, and a
temporary meets at most one of those with smaller numbers. -/
def Sparse (σ : Shape) : Prop :=
  live σ.track = [] ∧ (∀ j < σ.track.length, σ.track[j]? = some ⟨[], []⟩ → live (σ.track.drop j) = []) ∧
    needed σ.outer σ.track = true ∧ ∀ t ∈ σ.inner, ∀ u ∈ σ.inner, ∀ v ∈ σ.inner, u < t → v < t →
      σ.near t u = true → σ.near t v = true → u = v

instance (σ : Shape) : Decidable σ.Sparse := inferInstanceAs (Decidable (_ ∧ _ ∧ _ ∧ _))

/-- Whether the track is sparse once it reads nothing of the original, in whatever order that moves to the frame. -/
def thins : Nat → Shape → Bool
  | 0, σ => σ.outer.isEmpty && decide σ.Sparse
  | n + 1, σ => (σ.track.any (fun s => s.uses.any σ.outer.contains) || decide σ.Sparse) &&
      σ.outer.all fun t => thins n (σ.spill false t) && thins n (σ.spill true t)

/-- Footprints with two temporaries at most to read and one to write, up to names. -/
def narrow : List (Footprint × Nat) :=
  [(⟨[], []⟩, 0), (⟨[], [0]⟩, 1), (⟨[0], []⟩, 1), (⟨[0], [0]⟩, 1), (⟨[0], [1]⟩, 2), (⟨[0, 0], []⟩, 1),
    (⟨[0, 0], [0]⟩, 1), (⟨[0, 0], [1]⟩, 2), (⟨[0, 1], []⟩, 2), (⟨[0, 1], [0]⟩, 2), (⟨[0, 1], [1]⟩, 2),
    (⟨[0, 1], [2]⟩, 3)]

theorem thins_narrow : ∀ p ∈ narrow, (∀ v ∈ p.1.temps, v < p.2) ∧ (single p.1 p.2).thins 3 = true := by decide +kernel

section
variable {σ : Shape} {n t : Nat}

theorem sparse_of_thins (h : thins n σ = true) (hread : ∀ s ∈ σ.track, ∀ v ∈ s.uses, v ∉ σ.outer) : σ.Sparse := by
  cases n with
  | zero => exact of_decide_eq_true (Bool.and_eq_true_iff.mp h).2
  | succ n =>
    rw [thins, Bool.and_eq_true, Bool.or_eq_true] at h
    refine of_decide_eq_true (h.1.resolve_left fun hany => ?_)
    simp only [any_eq_true, contains_iff_mem] at hany
    obtain ⟨s, hs, v, hv, hout⟩ := hany
    exact hread s hs v hv hout

theorem thins_spill (neg : Bool) (h : thins n σ = true) (ht : t ∈ σ.outer) :
    ∃ m, n = m + 1 ∧ thins m (σ.spill neg t) = true := by
  cases n with
  | zero =>
    rw [thins, Bool.and_eq_true, List.isEmpty_iff] at h
    simp [h.1] at ht
  | succ n =>
    simp only [thins, Bool.and_eq_true, all_eq_true] at h
    refine ⟨n, rfl, ?_⟩
    cases neg with
    | false => exact (h.2 t ht).1
    | true => exact (h.2 t ht).2

end
end Shape

namespace Strand

/-- The strand of an operation, whose original temporaries move to the frame one by one. -/
structure Thins (base limit : Nat) (x : Strand) : Prop extends x.Numbered base limit where
  thins : x.shape.thins x.left = true

theorem Thins.exists_moves {base limit n t : Nat} (h : x.Thins base limit) (neg : Bool)
    (hbase : base ≤ limit) (hn : limit ≤ n) (ht : t < base) : ∃ x' n', Moves (Thins base) neg t n n' x x' := by
  by_cases hmention : ∃ s ∈ x.track, t ∈ s.temps
  · obtain ⟨s, hs, hmem⟩ := hmention
    obtain ⟨k, hk, rfl, s', hs', hmem⟩ := h.exists_number hs hmem
    obtain ⟨m, hm, hthins⟩ := Shape.thins_spill neg h.thins (h.mem_outer hs' hmem ht)
    have hleft : (x.move neg k n).left = m := by rw [Strand.move, hm, Nat.add_sub_cancel]
    exact ⟨_, _, h.moves_move hk (by omega) ⟨h.toNumbered.move hbase hn, hleft ▸ hthins⟩⟩
  · exact ⟨x, n, moves_same ⟨h.mono_limit hn, h.thins⟩ hmention⟩

theorem exists_original_thins {uses defs : List Temp} {base : Nat} (huses : uses.length ≤ 2) (hdefs : defs.length ≤ 1)
    (hbelow : ∀ t ∈ uses ++ defs, t < base) :
    ∃ x : Strand, x.track = [⟨uses, defs⟩] ∧ x.Thins base base ∧ ∀ t, ¬ x.Own t := by
  have hmake : ∀ (s : Footprint) (names : List Temp), (s, names.length) ∈ Shape.narrow → names.Nodup →
      (∀ t ∈ names, t ∈ uses ++ defs) → [s.map fun v => names.getD v 0] = [⟨uses, defs⟩] →
      ∃ x : Strand, x.track = [⟨uses, defs⟩] ∧ x.Thins base base ∧ ∀ t, ¬ x.Own t := by
    intro s names hs hnodup hnames htrack
    obtain ⟨hlt, hthins⟩ := Shape.thins_narrow _ hs
    exact ⟨original s names, htrack, ⟨numbered_original hlt hnodup fun t ht => hbelow t (hnames t ht), hthins⟩,
      fun _ => not_own_original⟩
  rcases uses with _ | ⟨u, _ | ⟨v, _ | ⟨_, uses⟩⟩⟩ <;> rcases defs with _ | ⟨w, _ | ⟨_, defs⟩⟩
  · exact hmake ⟨[], []⟩ [] (by simp [Shape.narrow]) (by simp) (by simp) rfl
  · exact hmake ⟨[], [0]⟩ [w] (by simp [Shape.narrow]) (by simp) (by simp) rfl
  · simp at hdefs
  · exact hmake ⟨[0], []⟩ [u] (by simp [Shape.narrow]) (by simp) (by simp) rfl
  · by_cases hw : u = w
    · subst hw
      exact hmake ⟨[0], [0]⟩ [u] (by simp [Shape.narrow]) (by simp) (by simp) rfl
    · exact hmake ⟨[0], [1]⟩ [u, w] (by simp [Shape.narrow]) (by simp [hw]) (by simp) rfl
  · simp at hdefs
  · by_cases hv : u = v
    · subst hv
      exact hmake ⟨[0, 0], []⟩ [u] (by simp [Shape.narrow]) (by simp) (by simp) rfl
    · exact hmake ⟨[0, 1], []⟩ [u, v] (by simp [Shape.narrow]) (by simp [hv]) (by simp) rfl
  · by_cases hv : u = v <;> by_cases hw : u = w
    · subst hv hw
      exact hmake ⟨[0, 0], [0]⟩ [u] (by simp [Shape.narrow]) (by simp) (by simp) rfl
    · subst hv
      exact hmake ⟨[0, 0], [1]⟩ [u, w] (by simp [Shape.narrow]) (by simp [hw]) (by simp) rfl
    · subst hw
      exact hmake ⟨[0, 1], [0]⟩ [u, v] (by simp [Shape.narrow]) (by simp [hv]) (by simp) rfl
    · by_cases hwv : v = w
      · subst hwv
        exact hmake ⟨[0, 1], [1]⟩ [u, v] (by simp [Shape.narrow]) (by simp [hv]) (by simp) rfl
      · exact hmake ⟨[0, 1], [2]⟩ [u, v, w] (by simp [Shape.narrow]) (by simp [hv, hw, hwv]) (by simp) rfl
  · simp at hdefs
  all_goals simp at huses

end Strand

theorem Footprint.live_append {ss ss' : List Footprint} (h : live ss' = []) : live (ss ++ ss') = live ss := by
  induction ss with
  | nil => exact h
  | cons s ss ih => rw [cons_append, live, ih, live]

section
variable {neg : Bool} {base limit t n n' : Nat} {xs xs' : List Strand}

theorem MovesAll.track {I : Nat → Strand → Prop} (h : MovesAll I neg t n n' xs xs') :
    spillAll neg t n (xs.flatMap Strand.track) = (xs'.flatMap Strand.track, n') := by
  induction h with
  | nil => rfl
  | cons h _ ih => rw [flatMap_cons, spillAll_append, h.track, ih, flatMap_cons]

theorem exists_movesAll (neg : Bool) (h : ∀ x ∈ xs, x.Thins base limit) (hbase : base ≤ limit) (hn : limit ≤ n)
    (ht : t < base) : ∃ xs' n', MovesAll (Strand.Thins base) neg t n n' xs xs' := by
  induction xs generalizing n with
  | nil => exact ⟨[], n, .nil n⟩
  | cons x xs ih =>
    obtain ⟨hx, hxs⟩ := forall_mem_cons.mp h
    obtain ⟨x', m, hmoves⟩ := hx.exists_moves neg hbase hn ht
    obtain ⟨xs', n', hall⟩ := ih hxs (Nat.le_trans hn hmoves.supply_le)
    exact ⟨x' :: xs', n', .cons hmoves hall⟩

theorem exists_track_drop (hlive : ∀ x ∈ xs, live x.track = [])
    (hindex : index < (xs.flatMap Strand.track).length) : ∃ x ∈ xs, ∃ k < x.track.length, ∃ rest,
      (xs.flatMap Strand.track).drop index = x.track.drop k ++ rest ∧ live rest = [] := by
  induction xs generalizing index with
  | nil => simp at hindex
  | cons x xs ih =>
    obtain ⟨-, hxs⟩ := forall_mem_cons.mp hlive
    have hrest : live (xs.flatMap Strand.track) = [] := by
      clear ih hlive hindex
      induction xs with
      | nil => rfl
      | cons y xs ih =>
        obtain ⟨hy, hxs⟩ := forall_mem_cons.mp hxs
        rw [flatMap_cons, live_append (ih hxs), hy]
    rw [flatMap_cons] at hindex ⊢
    rcases Nat.lt_or_ge index x.track.length with hlt | hge
    · exact ⟨x, mem_cons_self, index, hlt, _, drop_append_of_le_length (Nat.le_of_lt hlt), hrest⟩
    · rw [length_append] at hindex
      have hbehind : index - x.track.length < (xs.flatMap Strand.track).length := by omega
      obtain ⟨y, hy, k, hk, rest, hdrop, hnil⟩ := ih hxs hbehind
      refine ⟨y, mem_cons_of_mem _ hy, k, hk, rest, ?_, hnil⟩
      rw [drop_append, drop_eq_nil_of_le hge, nil_append, hdrop]

end

/-- Code that is made up of the strands of its operations. -/
structure Woven (base limit : Nat) (fp : Temp) (code : List Instr) (xs : List Strand) : Prop where
  track : code.map (Instr.footprint fp) = xs.flatMap Strand.track
  thins : ∀ x ∈ xs, x.Thins base limit
  disjointed : Disjointed xs

section
variable {base limit : Nat} {fp t u : Temp} {distance : Int} {code : List Instr} {xs : List Strand}

theorem exists_woven (h : ∀ o, .oper o ∈ code → o.uses.length ≤ 2 ∧ o.defs.length ≤ 1)
    (hbelow : ∀ i ∈ code, ∀ t ∈ i.temps, t < base) : ∃ xs, Woven base base fp code xs := by
  suffices hxs : ∃ xs : List Strand, code.map (Instr.footprint fp) = xs.flatMap Strand.track ∧
      ∀ x ∈ xs, x.Thins base base ∧ ∀ t, ¬ x.Own t by
    obtain ⟨xs, htrack, hxs⟩ := hxs
    exact ⟨xs, htrack, fun x hx => (hxs x hx).1,
      pairwise_of_forall_mem_list fun x hx _ _ t ht => absurd ht ((hxs x hx).2 t)⟩
  induction code with
  | nil => exact ⟨[], rfl, by simp⟩
  | cons i code ih =>
    obtain ⟨hi, hcode⟩ := forall_mem_cons.mp hbelow
    obtain ⟨xs, htrack, hxs⟩ := ih (fun o ho => h o (mem_cons_of_mem _ ho)) hcode
    have hwidth : (i.footprint fp).uses.length ≤ 2 ∧ (i.footprint fp).defs.length ≤ 1 := by
      cases i with
      | label l => simp [Instr.footprint, Instr.uses, Instr.defs]
      | oper o =>
        obtain ⟨huses, hdefs⟩ := h o mem_cons_self
        exact ⟨Nat.le_trans (length_filter_le _ _) huses, hdefs⟩
    have hlt : ∀ t ∈ (i.footprint fp).uses ++ (i.footprint fp).defs, t < base := fun t ht =>
      hi t ((mem_append.mp ht).elim (fun ht => mem_append_left _ (mem_of_mem_filter ht))
        (mem_append_right _))
    obtain ⟨x, hx, hthins, hown⟩ := Strand.exists_original_thins hwidth.1 hwidth.2 hlt
    exact ⟨x :: xs, by rw [map_cons, htrack, flatMap_cons, hx]; rfl,
      forall_mem_cons.mpr ⟨⟨hthins, hown⟩, hxs⟩⟩

theorem Woven.spill (h : Woven base limit fp code xs) (hbase : base ≤ limit) (hfp : fp < base) (hne : t ≠ fp)
    (ht : t < base) {s s' : Supply} {blocks : List (List Instr)} (hs : s.temps = limit)
    (hgives : Gives (code.mapM (Instr.spill t fp distance)) s blocks s') :
    limit ≤ s'.temps ∧ ∃ xs', Woven base s'.temps fp blocks.flatten xs' := by
  subst hs
  obtain ⟨xs', n', hmoves⟩ := exists_movesAll (distance < 0) h.thins hbase (Nat.le_refl _) ht
  have htrack := footprint_spill (Nat.lt_of_lt_of_le hfp hbase) hne hgives
  rw [h.track, hmoves.track] at htrack
  obtain ⟨hcode, rfl⟩ := Prod.mk.inj htrack
  refine ⟨hmoves.supply_le, xs', hcode.symm, fun x' hx' => ?_,
    hmoves.disjointed (fun x hx => (h.thins x hx).toNumbered) (Nat.le_refl _) h.disjointed⟩
  obtain ⟨x, -, m, m', -, hm', hx⟩ := hmoves.exists_moves hx'
  exact ⟨hx.fits.mono_limit hm', hx.fits.thins⟩

/-- Code stays woven however many temporaries of the original move. -/
theorem Woven.spills {r r' : Routine} {s s' : Supply} {ts : List Temp} (hspills : Spills r s ts r' s')
    (hts : ∀ t ∈ ts, t < base) (hbase : base ≤ s.temps) (hfp : r.frame.fp < base)
    (h : Woven base s.temps r.frame.fp r.instrs xs) : ∃ xs', Woven base s'.temps r.frame.fp r'.instrs xs' := by
  induction hspills generalizing xs with
  | nil r s => exact ⟨xs, h⟩
  | cons _ hne hspill _ ih =>
    simp only [Routine.spill, gives_bind, gives_pure] at hspill
    obtain ⟨blocks, s₁, hblocks, rfl, rfl⟩ := hspill
    obtain ⟨ht, hts⟩ := forall_mem_cons.mp hts
    obtain ⟨hle, xs₁, h₁⟩ := h.spill hbase hfp hne ht rfl hblocks
    exact ih hts (Nat.le_trans hbase hle) hfp h₁

theorem getElem?_of_labelIndex {l : Label} (h : labelIndex? code l = some index) : code[index]? = some (.label l) := by
  obtain ⟨hlt, hlabel, -⟩ := findIdx?_eq_some_iff_getElem.mp h
  rw [getElem?_eq_getElem hlt]
  cases hi : code[index] with
  | label k => simpa [hi, Instr.label?] using hlabel
  | oper o => simp [hi, Instr.label?] at hlabel

/-- If nothing is needed at labels then only what follows in the code matters. -/
theorem mem_live_of_liveIn {live : Liveness} (hsolves : live.Solves code)
    (hlabels : ∀ index l, code[index]? = some (.label l) →
      Footprint.live ((code.map (Instr.footprint fp)).drop index) = [])
    (h : t ∈ live.liveIn index) (ht : t ≠ fp) : t ∈ Footprint.live ((code.map (Instr.footprint fp)).drop index) := by
  refine hsolves.least (fun index t => t ≠ fp → t ∈ Footprint.live ((code.map (Instr.footprint fp)).drop index))
    (fun index i hi => ?_) index t h ht
  have hat : (code.map (Instr.footprint fp))[index]? = some (i.footprint fp) := by rw [getElem?_map, hi]; rfl
  rw [live_drop hat]
  refine ⟨fun t ht hne => mem_before.mpr (.inl (mem_filter.mpr ⟨ht, decide_eq_true hne⟩)),
    fun s hfollows t hs hdefs ht => ?_⟩
  obtain ⟨j, -, ⟨rfl, -⟩ | ⟨l, -, hl⟩⟩ := hfollows
  · exact mem_before.mpr (.inr ⟨hs ht, hdefs⟩)
  · have hlive := hs ht
    rw [hlabels s l (getElem?_of_labelIndex hl)] at hlive
    exact absurd hlive not_mem_nil

end

section
variable {base limit : Nat} {fp t u : Temp} {code : List Instr} {xs : List Strand} {live : Liveness}
  (h : Woven base limit fp code xs) (hread : ∀ i ∈ code, ∀ t ∈ i.temps, t < base → t = fp)
include h hread

theorem Woven.notMem_outer (hx : x ∈ xs) {s : Footprint} (hs : s ∈ x.shape.track) {v : Nat}
    (hv : v ∈ s.uses) : v ∉ x.shape.outer := fun hout => by
  have hmem : s.map x.name ∈ code.map (Instr.footprint fp) := by
    rw [h.track]
    exact mem_flatMap.mpr ⟨x, hx, mem_map_of_mem hs⟩
  obtain ⟨i, hi, heq⟩ := mem_map.mp hmem
  have huse : x.name v ∈ (i.footprint fp).uses := by
    rw [heq]
    exact mem_map_of_mem hv
  obtain ⟨huse, hne⟩ := mem_filter.mp huse
  exact of_decide_eq_true hne (hread i hi _ (mem_append_left _ huse) ((h.thins x hx).outer v hout).2)

theorem Woven.sparse (hx : x ∈ xs) : x.shape.Sparse :=
  Shape.sparse_of_thins (h.thins x hx).thins fun _ hs _ hv => h.notMem_outer hread hx hs hv

theorem Woven.mem_inner (hx : x ∈ xs) {k v : Nat} (hv : v ∈ Footprint.live (x.shape.track.drop k)) :
    v ∈ x.shape.inner := by
  obtain ⟨s, hs, hv⟩ := live_subset v hv
  have hs := mem_of_mem_drop hs
  exact Shape.mem_inner.mpr ⟨(h.thins x hx).lt_next hs (mem_append_left _ hv), h.notMem_outer hread hx hs hv, s, hs,
    mem_append_left _ hv⟩

/-- Every place in the code is one in a strand, and what follows there is all that matters. -/
theorem Woven.exists_place {s : Footprint} (hs : (code.map (Instr.footprint fp))[index]? = some s) :
    ∃ x ∈ xs, ∃ k, ∃ s', x.shape.track[k]? = some s' ∧ s'.map x.name = s ∧
      Footprint.live ((code.map (Instr.footprint fp)).drop index) = (Footprint.live (x.shape.track.drop k)).map x.name ∧
      Footprint.live ((code.map (Instr.footprint fp)).drop (index + 1)) =
        (Footprint.live (x.shape.track.drop (k + 1))).map x.name := by
  have hnil : ∀ x ∈ xs, Footprint.live x.track = [] := fun x hx => by
    have hlive := (h.thins x hx).live_drop (k := 0)
    rw [drop_zero, drop_zero, (h.sparse hread hx).1] at hlive
    exact hlive
  rw [h.track] at hs ⊢
  obtain ⟨hlt, hs⟩ := List.getElem?_eq_some_iff.mp hs
  obtain ⟨x, hx, k, hk, rest, hdrop, hrest⟩ := exists_track_drop hnil hlt
  have hsplit := hdrop
  rw [drop_eq_getElem_cons hlt, drop_eq_getElem_cons hk, cons_append, List.cons.injEq] at hsplit
  have hat : x.track[k]? = some s := by rw [getElem?_eq_getElem hk, ← hsplit.1, hs]
  rw [Strand.track, getElem?_map, Option.map_eq_some_iff] at hat
  obtain ⟨s', hs', hmap⟩ := hat
  refine ⟨x, hx, k, s', hs', hmap, ?_, ?_⟩
  · rw [hdrop, live_append hrest, (h.thins x hx).live_drop]
  · rw [hsplit.2, live_append hrest, (h.thins x hx).live_drop]

theorem Woven.live_label {l : Label} (hl : code[index]? = some (.label l)) :
    Footprint.live ((code.map (Instr.footprint fp)).drop index) = [] := by
  obtain ⟨x, hx, k, s, hs, hmap, hlive, -⟩ := h.exists_place hread (s := ⟨[], []⟩) (by rw [getElem?_map, hl]; rfl)
  obtain rfl : s = ⟨[], []⟩ := by
    cases s
    simpa [Footprint.map] using hmap
  rw [hlive, (h.sparse hread hx).2.1 k (List.getElem?_eq_some_iff.mp hs).1 hs, List.map_nil]

theorem Woven.exists_live (hsolves : live.Solves code) (hclash : Clash code live t u) (ht : t ≠ fp) (hu : u ≠ fp) :
    ∃ index, t ∈ Footprint.live ((code.map (Instr.footprint fp)).drop index) ∧
      u ∈ Footprint.live ((code.map (Instr.footprint fp)).drop index) := by
  have hin : ∀ {t index}, t ∈ live.liveIn index → t ≠ fp →
      t ∈ Footprint.live ((code.map (Instr.footprint fp)).drop index) :=
    mem_live_of_liveIn hsolves fun _ _ => h.live_label hread
  have hout : ∀ {t index}, t ∈ live.liveOut index → t ≠ fp →
      t ∈ Footprint.live ((code.map (Instr.footprint fp)).drop (index + 1)) := fun {t index} ht hne => by
    obtain ⟨s, ⟨j, -, ⟨rfl, -⟩ | ⟨l, -, hl⟩⟩, hs⟩ := (hsolves.mem_out index t).mp ht
    · exact hin hs hne
    · have hlive := hin hs hne
      rw [h.live_label hread (getElem?_of_labelIndex hl)] at hlive
      exact absurd hlive not_mem_nil
  -- what is written is read behind
  have hdef : ∀ {t index i}, code[index]? = some i → t ∈ i.defs → t ≠ fp →
      t ∈ Footprint.live ((code.map (Instr.footprint fp)).drop (index + 1)) := fun {t index i} hi ht hne => by
    obtain ⟨x, hx, k, s, hs, hmap, -, hlive⟩ := h.exists_place hread (s := i.footprint fp)
      (by rw [getElem?_map, hi]; rfl)
    have ht' : t ∈ (i.footprint fp).defs := ht
    rw [← hmap] at ht'
    obtain ⟨v, hv, rfl⟩ := mem_map.mp ht'
    rw [hlive]
    refine mem_map_of_mem (needed_spec (h.sparse hread hx).2.2.1 hs hv fun hout => hne ?_)
    exact hread i (mem_of_getElem? hi) _ (mem_append_right _ ht) ((h.thins x hx).outer v hout).2
  obtain ⟨index, ⟨ht', hu'⟩ | ⟨ht', hu'⟩ | ⟨i, hi, ⟨ht', hu'⟩ | ⟨hu', ht'⟩⟩⟩ := hclash
  · exact ⟨index, hin ht' ht, hin hu' hu⟩
  · exact ⟨index + 1, hout ht' ht, hout hu' hu⟩
  · exact ⟨index + 1, hdef hi ht' ht, hout hu' hu⟩
  · exact ⟨index + 1, hout ht' ht, hdef hi hu' hu⟩

theorem Woven.exists_near (hsolves : live.Solves code)
    (hu : u ∈ (Interference.ofCode code live fp).neighbours t) : ∃ x ∈ xs, ∃ v ∈ x.shape.inner, ∃ w ∈ x.shape.inner,
      x.name v = t ∧ x.name w = u ∧ x.shape.near v w = true := by
  obtain ⟨hne, htfp, hufp, hclash⟩ := Interference.mem_neighbours_iff_clash.mp hu
  obtain ⟨index, ht, hu'⟩ := h.exists_live hread hsolves hclash htfp hufp
  have hlt : index < (code.map (Instr.footprint fp)).length := by
    by_contra hge
    rw [drop_eq_nil_of_le (Nat.le_of_not_lt hge)] at ht
    exact absurd ht not_mem_nil
  obtain ⟨x, hx, k, -, -, -, hlive, -⟩ := h.exists_place hread (getElem?_eq_getElem hlt)
  rw [hlive] at ht hu'
  obtain ⟨v, hv, rfl⟩ := mem_map.mp ht
  obtain ⟨w, hw, rfl⟩ := mem_map.mp hu'
  exact ⟨x, hx, v, h.mem_inner hread hx hv, w, h.mem_inner hread hx hw, rfl, rfl,
    meets_iff.mpr ⟨fun heq => hne (congrArg x.name heq), k, hv, hw⟩⟩

theorem Woven.oneOlder (hsolves : live.Solves code) : (Interference.ofCode code live fp).OneOlder := by
  intro t u v hu hv hut hvt
  obtain ⟨x, hx, t₁, ht₁, u₁, hu₁, rfl, rfl, hnear⟩ := h.exists_near hread hsolves hu
  obtain ⟨y, hy, t₂, ht₂, v₁, hv₁, heq, rfl, hnear'⟩ := h.exists_near hread hsolves hv
  -- the temporary belongs to one strand only
  obtain rfl : x = y := by
    by_contra hne
    have hsymm : Std.Symm fun x y : Strand => ∀ t, x.Own t → ¬ y.Own t := ⟨fun _ _ h t ht ht' => h t ht' ht⟩
    exact h.disjointed.forall hx hy hne _ ⟨t₁, ht₁, rfl⟩ ⟨t₂, ht₂, heq⟩
  have hfits := h.thins x hx
  have hlt : ∀ {a b}, a ∈ x.shape.inner → b ∈ x.shape.inner → x.name a < x.name b → a < b := fun {a b} ha hb hname => by
    rcases Nat.lt_trichotomy a b with hlt | rfl | hgt
    · exact hlt
    · exact absurd hname (Nat.lt_irrefl _)
    · exact absurd (hfits.mono b hb a ha hgt) (Nat.lt_asymm hname)
  obtain rfl := hfits.inj t₂ (Shape.mem_inner.mp ht₂).1 t₁ (Shape.mem_inner.mp ht₁).1 heq
  exact congrArg x.name ((h.sparse hread hx).2.2.2 t₂ ht₂ u₁ hu₁ v₁ hv₁ (hlt hu₁ ht₂ hut)
    (hlt hv₁ ht₂ hvt) hnear hnear')

end
end MmixCompiler
