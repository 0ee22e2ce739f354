import Mathlib.Data.List.GetD
import MmixCompiler.Proofs.Register.Rewriting
import MmixCompiler.Proofs.Register.Segment

/-! Strands: tracks of code as it grows in register allocation. A strand is a shape with names for its
numbers. Its temporaries are a cluster of the interference graph, so what colouring may spill of them
can be read off the shape. -/

namespace MmixCompiler

open Mmix Fresh Footprint List

variable {s : Footprint}

/-- A shape with names for its numbers. Within a round of allocation, the temporaries `chosen` still
are to move to the frame, and at most `left` will altogether. -/
structure Strand where
  shape : Shape
  name : Nat → Nat
  chosen : List Nat
  left : Nat

namespace Strand

def track (x : Strand) : List Footprint := x.shape.track.map (Footprint.map x.name)

def Own (x : Strand) (t : Nat) : Prop := ∃ v ∈ x.shape.inner, x.name v = t

instance (x : Strand) : DecidablePred x.Own := fun t =>
  inferInstanceAs (Decidable (∃ v ∈ x.shape.inner, x.name v = t))

/-- The strand is one of code whose original temporaries are below `base` and all others from there
up to `limit`, in the order in which they came about. -/
structure Numbered (base limit : Nat) (x : Strand) : Prop where
  lt_next : ∀ {s}, s ∈ x.shape.track → ∀ {v}, v ∈ s.temps → v < x.shape.next
  inj : ∀ u < x.shape.next, ∀ v < x.shape.next, x.name u = x.name v → u = v
  outer : ∀ v ∈ x.shape.outer, v < x.shape.next ∧ x.name v < base
  inner : ∀ v ∈ x.shape.inner, base ≤ x.name v
  mono : ∀ u ∈ x.shape.inner, ∀ v ∈ x.shape.inner, u < v → x.name u < x.name v
  limit : ∀ v < x.shape.next, x.name v < limit
  chosen : ∀ v ∈ x.chosen, v < x.shape.next

/-- Register allocation moves no more temporaries of the strand than it says. -/
structure Fits (base limit : Nat) (x : Strand) : Prop extends x.Numbered base limit where
  settles : x.shape.settles x.left x.chosen = true

section
variable {x : Strand} {base limit t v k : Nat}

theorem Fits.tidy (h : x.Fits base limit) : x.shape.tidy = true := Shape.tidy_of_settles h.settles

theorem mem_track : s ∈ x.track ↔ ∃ s' ∈ x.shape.track, s'.map x.name = s := mem_map

section

variable (h : x.Numbered base limit)

include h

theorem Numbered.exists_number (hs : s ∈ x.track) (ht : t ∈ s.temps) :
    ∃ v < x.shape.next, x.name v = t ∧ ∃ s' ∈ x.shape.track, v ∈ s'.temps := by
  obtain ⟨s', hs', rfl⟩ := mem_track.mp hs
  rw [temps_map] at ht
  obtain ⟨v, hv, rfl⟩ := mem_map.mp ht
  exact ⟨v, h.lt_next hs' hv, rfl, s', hs', hv⟩

theorem Numbered.lt_or_own (hs : s ∈ x.track) (ht : t ∈ s.temps) : t < base ∨ x.Own t := by
  obtain ⟨v, hv, rfl, s', hs', hmem⟩ := h.exists_number hs ht
  by_cases hout : v ∈ x.shape.outer
  · exact .inl (h.outer v hout).2
  · exact .inr ⟨v, Shape.mem_inner.mpr ⟨hv, hout, s', hs', hmem⟩, rfl⟩

theorem Numbered.le_of_own (ht : x.Own t) : base ≤ t ∧ t < limit := by
  obtain ⟨v, hv, rfl⟩ := ht
  exact ⟨h.inner v hv, h.limit v (Shape.mem_inner.mp hv).1⟩

theorem Numbered.mem_map_iff {ts : List Nat} (hts : ∀ u ∈ ts, u < x.shape.next)
    (hv : v < x.shape.next) : x.name v ∈ ts.map x.name ↔ v ∈ ts := by
  refine ⟨fun hmem => ?_, mem_map_of_mem⟩
  obtain ⟨u, hu, heq⟩ := mem_map.mp hmem
  exact h.inj u (hts u hu) v hv heq ▸ hu

theorem Numbered.live_drop : live (x.track.drop k) = (live (x.shape.track.drop k)).map x.name := by
  rw [track, ← map_drop]
  have hlt : ∀ u ∈ (x.shape.track.drop k).flatMap temps, u < x.shape.next := fun u hu => by
    obtain ⟨s, hs, hu⟩ := mem_flatMap.mp hu
    exact h.lt_next (mem_of_mem_drop hs) hu
  exact live_map fun u hu v hv => h.inj u (hlt u hu) v (hlt v hv)

theorem Numbered.mem_live_drop (hv : v < x.shape.next) :
    x.name v ∈ live (x.track.drop k) ↔ v ∈ live (x.shape.track.drop k) := by
  rw [h.live_drop]
  refine h.mem_map_iff (fun u hu => ?_) hv
  obtain ⟨s, hs, hu⟩ := live_subset u hu
  exact h.lt_next (mem_of_mem_drop hs) (mem_append_left _ hu)

end

/-- How an operation of the code stands in a strand. The first and the last may mention more than the
strand says. -/
structure Holds (fp : Temp) (x : Strand) (k : Nat) (s : Footprint) (o : Oper) : Prop where
  jumps : k + 1 < x.track.length → o.jumps = []
  uses : ∀ t, x.Own t → (t ∈ o.uses ↔ t ∈ s.uses)
  defs : ∀ t, x.Own t → (t ∈ o.defs ↔ t ∈ s.defs)
  defs_eq : k + 1 < x.track.length → o.defs = s.defs
  uses_eq : 0 < k → o.uses.filter (· ≠ fp) = s.uses

theorem Fits.segment (h : x.Fits base limit) {code : List Instr} {fp : Temp} (hfp : fp < base)
    {start : Nat} (hoper : ∀ k s, x.track[k]? = some s → ∃ o, code[start + k]? = some (.oper o) ∧ Holds fp x k s o)
    (helse : ∀ index i, code[index]? = some i → index < start ∨ start + x.track.length ≤ index →
      ∀ t, x.Own t → t ∉ i.uses ∧ t ∉ i.defs) : Segment code fp start x.track x.Own := by
  obtain ⟨-, hinner, hneeded, hencloses, -⟩ := Shape.tidy_spec h.tidy
  have hlen : x.track.length = x.shape.track.length := length_map _
  have hat : ∀ k s, x.track[k]? = some s →
      ∃ s', x.shape.track[k]? = some s' ∧ Footprint.map x.name s' = s := fun k s hs => by
    rwa [track, getElem?_map, Option.map_eq_some_iff] at hs
  refine ⟨fun k s hs => ?_, helse, fun hown => ?_, fun t ht => ?_, fun k s hs t ht hown => ?_, fun t ht => ?_⟩
  · obtain ⟨o, ho, hholds⟩ := hoper k s hs
    obtain ⟨s', hs', rfl⟩ := hat k s hs
    have hmem : s' ∈ x.shape.track := mem_of_getElem? hs'
    refine ⟨o, ho, hholds.jumps, fun t ht => ⟨hholds.uses t ht, hholds.defs t ht⟩, fun hk t ht => ?_,
      fun hpos hk t ht => or_iff_not_imp_left.mpr fun hne => ?_⟩
    · rw [hholds.defs_eq hk] at ht
      obtain ⟨v, hv, rfl⟩ := mem_map.mp ht
      refine ⟨v, Shape.mem_inner.mpr ⟨h.lt_next hmem (mem_append_right _ hv), ?_, s', hmem,
        mem_append_right _ hv⟩, rfl⟩
      exact (encloses_spec hencloses hs' (hlen ▸ hk)).1 v hv
    · have ht : t ∈ o.uses.filter (· ≠ fp) := mem_filter.mpr ⟨ht, decide_eq_true hne⟩
      rw [hholds.uses_eq hpos] at ht
      obtain ⟨v, hv, rfl⟩ := mem_map.mp ht
      refine ⟨v, Shape.mem_inner.mpr ⟨h.lt_next hmem (mem_append_left _ hv), ?_, s', hmem,
        mem_append_left _ hv⟩, rfl⟩
      exact (encloses_spec hencloses hs' (hlen ▸ hk)).2 hpos v hv
  · exact absurd hfp (Nat.not_lt.mpr (h.le_of_own hown).1)
  · obtain ⟨v, hv, rfl⟩ := ht
    exact fun hlive => (hinner v hv).1 ((h.mem_live_drop (k := 0) (Shape.mem_inner.mp hv).1).mp hlive)
  · obtain ⟨v, hv, rfl⟩ := hown
    obtain ⟨s', hs', rfl⟩ := hat k s hs
    have hv' := Shape.mem_inner.mp hv
    refine (h.mem_live_drop hv'.1).mpr (needed_spec hneeded hs' ?_ hv'.2.1)
    refine (h.mem_map_iff (fun u hu => ?_) hv'.1).mp ht
    exact h.lt_next (mem_of_getElem? hs') (mem_append_right _ hu)
  · obtain ⟨v, hv, rfl⟩ := ht
    obtain ⟨k, hk⟩ := (hinner v hv).2
    exact ⟨k, (h.mem_live_drop (Shape.mem_inner.mp hv).1).mpr hk⟩

/-- The temporaries of a strand are a cluster. -/
theorem Fits.cluster (h : x.Fits base limit) {code : List Instr} {fp : Temp} {start : Nat}
    {live : Liveness} (hsegment : Segment code fp start x.track x.Own) (hsolves : live.Solves code) :
    Cluster (Interference.ofCode code live fp) x.name x.shape.inner x.shape.near
      ((live.liveIn (start + 1)).filter fun u => u ≠ fp ∧ ¬ x.Own u) := by
  have hown : ∀ v ∈ x.shape.inner, x.Own (x.name v) := fun v hv => ⟨v, hv, rfl⟩
  have hlt : ∀ v ∈ x.shape.inner, v < x.shape.next := fun v hv => (Shape.mem_inner.mp hv).1
  have hout : ∀ u, u ∈ (live.liveIn (start + 1)).filter (fun u => u ≠ fp ∧ ¬ x.Own u) ↔
      u ≠ fp ∧ ¬ x.Own u ∧ u ∈ live.liveIn (start + 1) := fun u => by simp; tauto
  refine ⟨Shape.nodup_inner, (hsolves.sortedIn _).nodup.filter _, fun v hv => ?_,
    fun u hu v hv => h.inj u (hlt u hu) v (hlt v hv), fun v hv hmem => ?_, fun v hv t => ?_,
    fun a ha b hb hne => ?_⟩
  · obtain ⟨k, hk⟩ := hsegment.used _ (hown v hv)
    obtain ⟨i, hi, huse⟩ := hsolves.exists_use (hsegment.liveIn_of_mem_live hsolves (hown v hv) hk)
    refine (Interference.mem_nodes_ofCode hsolves).mpr ⟨fun heq => ?_, i, hi, .inl huse⟩
    exact hsegment.notFp (heq ▸ hown v hv)
  · exact ((hout _).mp hmem).2.1 (hown v hv)
  · rw [hsegment.mem_neighbours hsolves (hown v hv), hout]
    refine or_congr Iff.rfl ⟨?_, ?_⟩
    · rintro ⟨⟨u, hu, rfl⟩, hne, k, hvk, huk⟩
      refine ⟨u, hu, meets_iff.mpr ⟨fun heq => hne (congrArg x.name heq), k, ?_, ?_⟩, rfl⟩
      · exact (h.mem_live_drop (hlt v hv)).mp hvk
      · exact (h.mem_live_drop (hlt u hu)).mp huk
    · rintro ⟨u, hu, hnear, rfl⟩
      obtain ⟨hne, k, hvk, huk⟩ := meets_iff.mp hnear
      refine ⟨hown u hu, fun heq => hne (h.inj v (hlt v hv) u (hlt u hu) heq), k, ?_, ?_⟩
      · exact (h.mem_live_drop (hlt v hv)).mpr hvk
      · exact (h.mem_live_drop (hlt u hu)).mpr huk
  · obtain ⟨hafp, -, ha⟩ := (hout a).mp ha
    obtain ⟨hbfp, -, hb⟩ := (hout b).mp hb
    exact Interference.mem_neighbours_iff_clash.mpr ⟨hne, hafp, hbfp, start + 1, .inl ⟨ha, hb⟩⟩

end
end Strand

namespace Strand

variable {x x' : Strand} {neg : Bool} {base limit t u v k n n' : Nat}

/-- A strand of the original code: a footprint with names for its numbers. -/
def original (s : Footprint) (names : List Nat) : Strand :=
  ⟨.single s names.length, fun v => names.getD v 0, [], 3⟩

theorem notMem_inner_single : v ∉ (Shape.single s n).inner := fun hv =>
  (Shape.mem_inner.mp hv).2.1 (mem_range.mpr (Shape.mem_inner.mp hv).1)

theorem not_own_original {names : List Nat} : ¬ (original s names).Own t := fun ⟨_, hv, _⟩ =>
  notMem_inner_single hv

theorem numbered_original {names : List Nat} (hs : ∀ v ∈ s.temps, v < names.length)
    (hnodup : names.Nodup) (hnames : ∀ t ∈ names, t < base) : (original s names).Numbered base base := by
  have hbelow : ∀ v < names.length, names.getD v 0 < base := fun v hv => by
    rw [getD_eq_getElem _ _ hv]
    exact hnames _ (getElem_mem hv)
  refine ⟨fun hmem v hv => ?_, fun u hu v hv heq => ?_, fun v hv => ?_, fun v hv => absurd hv notMem_inner_single,
    fun u hu => absurd hu notMem_inner_single, hbelow, by simp [original]⟩
  · obtain rfl := mem_singleton.mp hmem
    exact hs v hv
  · simp only [original] at heq
    rw [getD_eq_getElem _ _ hu, getD_eq_getElem _ _ hv] at heq
    exact hnodup.getElem_inj_iff.mp heq
  · exact ⟨mem_range.mp hv, hbelow v (mem_range.mp hv)⟩

theorem Numbered.mono_limit (h : x.Numbered base limit) (hle : limit ≤ n) : x.Numbered base n :=
  { h with limit := fun v hv => Nat.lt_of_lt_of_le (h.limit v hv) hle }

theorem Fits.mono_limit (h : x.Fits base limit) (hle : limit ≤ n) : x.Fits base n :=
  { h.toNumbered.mono_limit hle with settles := h.settles }

/-- The strand after the temporary with number `k` has moved to the frame. Further numbers are the
temporaries from `n` on. -/
def move (neg : Bool) (x : Strand) (k n : Nat) : Strand :=
  ⟨x.shape.spill neg k, fun v => if v < x.shape.next then x.name v else n + (v - x.shape.next),
    x.chosen.filter (· ≠ k), x.left - 1⟩

theorem name_move_old (hv : v < x.shape.next) : (x.move neg k n).name v = x.name v := if_pos hv

theorem name_move_new (hv : x.shape.next ≤ v) : (x.move neg k n).name v = n + (v - x.shape.next) :=
  if_neg (Nat.not_lt.mpr hv)

theorem le_next_move : x.shape.next ≤ (x.move neg k n).shape.next := le_snd_spillAll

theorem Numbered.track_move (h : x.Numbered base limit) (hk : k < x.shape.next) : spillAll neg (x.name k) n x.track =
      ((x.move neg k n).track, n + ((x.move neg k n).shape.next - x.shape.next)) := by
  have hnew : ∀ i, (x.move neg k n).name (x.shape.next + i) = n + i := fun i => by
    rw [name_move_new (Nat.le_add_right _ _)]
    omega
  have htrack : x.shape.track.map (Footprint.map (x.move neg k n).name) = x.track := by
    refine map_congr_left fun s hs => ?_
    have huses : s.uses.map (x.move neg k n).name = s.uses.map x.name :=
      map_congr_left fun v hv => name_move_old (h.lt_next hs (mem_append_left _ hv))
    have hdefs : s.defs.map (x.move neg k n).name = s.defs.map x.name :=
      map_congr_left fun v hv => name_move_old (h.lt_next hs (mem_append_right _ hv))
    rw [Footprint.map, Footprint.map, huses, hdefs]
  have hinj : ∀ s ∈ x.shape.track, ∀ v ∈ s.temps,
      (x.move neg k n).name v = (x.move neg k n).name k → v = k := fun s hs v hv heq => by
    have hv := h.lt_next hs hv
    rw [name_move_old hv, name_move_old hk] at heq
    exact h.inj v hv k hk heq
  have hspill := spillAll_map neg hnew hinj
  rwa [htrack, name_move_old hk] at hspill

theorem Numbered.mem_inner_move (h : x.Numbered base limit) (hv : v ∈ (x.move neg k n).shape.inner) :
    v ∈ x.shape.inner ∧ v ≠ k ∨ x.shape.next ≤ v := by
  obtain ⟨-, hout, s, hs, hv⟩ := Shape.mem_inner.mp hv
  rcases mem_temps_spillAll hs hv with ⟨⟨s, hs, hv⟩, hne⟩ | hge
  · refine .inl ⟨Shape.mem_inner.mpr ⟨h.lt_next hs hv, fun hmem => hout ?_, s, hs, hv⟩, hne⟩
    exact mem_filter.mpr ⟨hmem, decide_eq_true hne⟩
  · exact .inr hge.1

theorem Numbered.move (h : x.Numbered base limit) (hbase : base ≤ limit) (hn : limit ≤ n) :
    (x.move neg k n).Numbered base (n + ((x.move neg k n).shape.next - x.shape.next)) := by
  have hle : x.shape.next ≤ (x.move neg k n).shape.next := le_next_move
  refine ⟨fun hs v hv => ?_, fun u hu v hv heq => ?_, fun v hv => ?_, fun v hv => ?_, fun u hu v hv hlt => ?_,
    fun v hv => ?_, fun v hv => ?_⟩
  · rcases mem_temps_spillAll hs hv with ⟨⟨s, hs, hv⟩, -⟩ | hnew
    · exact Nat.lt_of_lt_of_le (h.lt_next hs hv) hle
    · exact hnew.2
  · rcases Nat.lt_or_ge u x.shape.next with hu' | hu' <;> rcases Nat.lt_or_ge v x.shape.next with hv' | hv'
    · rw [name_move_old hu', name_move_old hv'] at heq
      exact h.inj u hu' v hv' heq
    · rw [name_move_old hu', name_move_new hv'] at heq
      have := h.limit u hu'
      omega
    · rw [name_move_new hu', name_move_old hv'] at heq
      have := h.limit v hv'
      omega
    · rw [name_move_new hu', name_move_new hv'] at heq
      omega
  · obtain ⟨hlt, hbase⟩ := h.outer v (mem_of_mem_filter hv)
    exact ⟨Nat.lt_of_lt_of_le hlt hle, by rwa [name_move_old hlt]⟩
  · rcases h.mem_inner_move hv with ⟨hv, -⟩ | hge
    · rw [name_move_old (Shape.mem_inner.mp hv).1]
      exact h.inner v hv
    · rw [name_move_new hge]
      omega
  · rcases h.mem_inner_move hv with ⟨hv, -⟩ | hge
    · -- what is older than an old one is old
      have hlt' := (Shape.mem_inner.mp hv).1
      obtain ⟨hu, -⟩ := (h.mem_inner_move hu).resolve_right (by omega)
      rw [name_move_old (Shape.mem_inner.mp hu).1, name_move_old hlt']
      exact h.mono u hu v hv hlt
    · rw [name_move_new hge]
      rcases Nat.lt_or_ge u x.shape.next with hu' | hu'
      · rw [name_move_old hu']
        have := h.limit u hu'
        omega
      · rw [name_move_new hu']
        omega
  · rcases Nat.lt_or_ge v x.shape.next with hv' | hv'
    · rw [name_move_old hv']
      have := h.limit v hv'
      omega
    · rw [name_move_new hv']
      omega
  · exact Nat.lt_of_lt_of_le (h.chosen v (mem_of_mem_filter hv)) hle

theorem Numbered.mem_outer (h : x.Numbered base limit) (hs : s ∈ x.shape.track) (hk : k ∈ s.temps)
    (hlt : x.name k < base) : k ∈ x.shape.outer := by
  by_contra hout
  exact Nat.not_lt.mpr (h.inner k (Shape.mem_inner.mpr ⟨h.lt_next hs hk, hout, s, hs, hk⟩)) hlt

/-- What moving `t` to the frame does to a strand, with the temporaries from `n` to `n'` taken. It keeps the
invariant `I`, which may depend on how many there are. -/
structure Moves (I : Nat → Strand → Prop) (neg : Bool) (t n n' : Nat) (x x' : Strand) : Prop where
  track : spillAll neg t n x.track = (x'.track, n')
  fits : I n' x'
  own : ∀ u, x'.Own u → x.Own u ∨ n ≤ u ∧ u < n'
  chosen : ∀ u ∈ x.chosen.map x.name, u ≠ t → u ∈ x'.chosen.map x'.name
  le : x'.left ≤ x.left
  lt : (∃ s ∈ x.track, t ∈ s.temps) → x'.left < x.left

section
variable {I : Nat → Strand → Prop}

theorem moves_same (h : I n x) (hnot : ¬ ∃ s ∈ x.track, t ∈ s.temps) : Moves I neg t n n x x where
  track := spillAll_of_notMem fun s hs ht => hnot ⟨s, hs, ht⟩
  fits := h
  own := fun _ hu => .inl hu
  chosen := fun _ hu _ => hu
  le := Nat.le_refl _
  lt := fun h => absurd h hnot

theorem Numbered.moves_move (h : x.Numbered base limit) (hk : k < x.shape.next) (hlt : (x.move neg k n).left < x.left)
    (hI : I (n + ((x.move neg k n).shape.next - x.shape.next)) (x.move neg k n)) :
    Moves I neg (x.name k) n (n + ((x.move neg k n).shape.next - x.shape.next)) x (x.move neg k n) := by
  refine ⟨h.track_move hk, hI, ?_, fun u hu hne => ?_, Nat.le_of_lt hlt, fun _ => hlt⟩
  · rintro u ⟨v, hv, rfl⟩
    have hlt := (Shape.mem_inner.mp hv).1
    rcases h.mem_inner_move hv with ⟨hv, hne⟩ | hge
    · exact .inl ⟨v, hv, (name_move_old (Shape.mem_inner.mp hv).1).symm⟩
    · rw [name_move_new hge]
      exact .inr (by omega)
  · obtain ⟨v, hv, rfl⟩ := mem_map.mp hu
    refine mem_map.mpr ⟨v, mem_filter.mpr ⟨hv, decide_eq_true fun heq => ?_⟩, name_move_old (h.chosen v hv)⟩
    exact hne (congrArg x.name heq)

theorem Moves.supply_le (h : Moves I neg t n n' x x') : n ≤ n' := by
  have hle : n ≤ (spillAll neg t n x.track).2 := le_snd_spillAll
  rwa [h.track] at hle

end

/-- A strand takes part in moving a temporary that is original or was chosen. -/
theorem Fits.exists_moves (h : x.Fits base limit) (hbase : base ≤ limit) (hn : limit ≤ n)
    (hallowed : (∃ s ∈ x.track, t ∈ s.temps) → t < base ∨ t ∈ x.chosen.map x.name) :
    ∃ x' n', Moves (Fits base) false t n n' x x' := by
  by_cases hmention : ∃ s ∈ x.track, t ∈ s.temps
  · obtain ⟨s, hs, ht⟩ := hmention
    obtain ⟨k, hk, rfl, s', hs', hmem⟩ := h.exists_number hs ht
    have hchoice : k ∈ x.shape.outer ∨ k ∈ x.chosen :=
      (hallowed ⟨s, hs, ht⟩).imp (h.mem_outer hs' hmem) (h.mem_map_iff h.chosen hk).mp
    obtain ⟨m, hm, hsettles⟩ := Shape.settles_spill h.settles hchoice
    have hleft : (x.move false k n).left = m := by rw [Strand.move, hm, Nat.add_sub_cancel]
    exact ⟨_, _, h.moves_move hk (by omega) ⟨h.toNumbered.move hbase hn, hleft ▸ hsettles⟩⟩
  · exact ⟨x, n, moves_same (h.mono_limit hn) hmention⟩

end Strand

/-- Strands without temporaries in common. -/
def Disjointed (xs : List Strand) : Prop := xs.Pairwise fun x y => ∀ t, x.Own t → ¬ y.Own t

inductive MovesAll (I : Nat → Strand → Prop) (neg : Bool) (t : Nat) : Nat → Nat → List Strand → List Strand → Prop where
  | nil (n : Nat) : MovesAll I neg t n n [] []
  | cons {n m n' : Nat} {x x' : Strand} {xs xs' : List Strand} (h : Strand.Moves I neg t n m x x')
      (hs : MovesAll I neg t m n' xs xs') : MovesAll I neg t n n' (x :: xs) (x' :: xs')

namespace MovesAll

variable {I : Nat → Strand → Prop} {neg : Bool} {base limit t n n' : Nat} {x' : Strand} {xs xs' : List Strand}

theorem supply_le (h : MovesAll I neg t n n' xs xs') : n ≤ n' := by
  induction h with
  | nil => exact Nat.le_refl _
  | cons h _ ih => exact Nat.le_trans h.supply_le ih

theorem exists_moves (h : MovesAll I neg t n n' xs xs') (hx' : x' ∈ xs') :
    ∃ x ∈ xs, ∃ m m', n ≤ m ∧ m' ≤ n' ∧ Strand.Moves I neg t m m' x x' := by
  induction h with
  | nil => simp at hx'
  | @cons n m n' x _ xs _ h hs ih =>
    rcases mem_cons.mp hx' with rfl | hx'
    · exact ⟨x, mem_cons_self, n, m, Nat.le_refl _, hs.supply_le, h⟩
    · obtain ⟨y, hy, k, k', hle, hle', hmoves⟩ := ih hx'
      exact ⟨y, mem_cons_of_mem _ hy, k, k', Nat.le_trans h.supply_le hle, hle', hmoves⟩

theorem disjointed (h : MovesAll I neg t n n' xs xs') (hfits : ∀ x ∈ xs, x.Numbered base limit)
    (hlimit : limit ≤ n) (hxs : Disjointed xs) : Disjointed xs' := by
  induction h with
  | nil => exact hxs
  | @cons n m n' x x' xs xs' h hs ih =>
    obtain ⟨hx, hxs⟩ := pairwise_cons.mp hxs
    have hle := h.supply_le
    have hfits' : ∀ y ∈ xs, y.Numbered base limit := fun y hy => hfits y (mem_cons_of_mem _ hy)
    refine pairwise_cons.mpr ⟨fun y' hy' u hu hu' => ?_, ih hfits' (by omega) hxs⟩
    obtain ⟨y, hy, k, k', hk, -, hmoves⟩ := hs.exists_moves hy'
    have hlow : ∀ z ∈ x :: xs, z.Own u → u < limit := fun z hz hu => ((hfits z hz).le_of_own hu).2
    -- what is new in a strand is new in no other, and none had it before
    rcases h.own u hu with hu | hu <;> rcases hmoves.own u hu' with hu' | hu'
    · exact hx y hy u hu hu'
    · have := hlow x mem_cons_self hu
      omega
    · have := hlow y (mem_cons_of_mem _ hy) hu'
      omega
    · omega

end MovesAll
end MmixCompiler
