import MmixCompiler.Proofs.Register.Growth

/-! Register allocation comes to an end. Strands allow for a number of moves, and every round that finds
no registers uses some of them up; so with two registers or more, allocation gives a result. -/

namespace MmixCompiler

open Mmix Fresh Footprint List

variable {x : Strand} {r : Routine} {s : Supply} {registers : Nat}

/-- How many moves strands allow for. -/
def movesLeft (xs : List Strand) : Nat := (xs.map Strand.left).sum

namespace MovesAll

variable {I : Nat → Strand → Prop} {neg : Bool} {t n n' : Nat} {x : Strand} {xs xs' : List Strand}

theorem movesLeft_le (h : MovesAll I neg t n n' xs xs') : movesLeft xs' ≤ movesLeft xs := by
  induction h with
  | nil => exact Nat.le_refl _
  | cons h _ ih =>
    simp only [movesLeft, map_cons, sum_cons] at ih ⊢
    have := h.le
    omega

theorem movesLeft_lt (h : MovesAll I neg t n n' xs xs') (hx : x ∈ xs)
    (hmention : ∃ f ∈ x.track, t ∈ f.temps) : movesLeft xs' < movesLeft xs := by
  induction h with
  | nil => simp at hx
  | @cons n m n' y y' ys ys' h hs ih =>
    have hle := hs.movesLeft_le
    simp only [movesLeft, map_cons, sum_cons] at ih hle ⊢
    rcases mem_cons.mp hx with rfl | hx
    · have := h.lt hmention
      omega
    · have := h.le
      have := ih hx
      omega

end MovesAll

theorem Strand.mentions_of_own {t : Nat} (h : x.Own t) : ∃ f ∈ x.track, t ∈ f.temps := by
  obtain ⟨v, hv, rfl⟩ := h
  obtain ⟨-, -, f, hf, hmem⟩ := Shape.mem_inner.mp hv
  exact ⟨_, mem_map_of_mem hf, temps_map ▸ mem_map_of_mem hmem⟩

theorem Routine.lastSlot_of_spill {r' : Routine} {s' : Supply} {t : Temp}
    (h : Gives (r.spill t) s r' s') : r'.lastSlot = r.lastSlot + 8 := by
  obtain ⟨-, blocks, -, rfl⟩ := Routine.blocks_of_spill h
  simp only [Routine.lastSlot]
  omega

theorem Block.filterMap_label? {t fp : Temp} {distance : Int} {low high : Nat} {i : Instr}
    {block : List Instr} (h : Block t fp distance low high i block) :
    block.filterMap Instr.label? = [i].filterMap Instr.label? := by
  rcases h.label?_eq with ⟨l, rfl, rfl⟩ | ⟨hnone, -, hblock⟩
  · rfl
  · rw [filterMap_eq_nil_iff.mpr hblock]
    simp [hnone]

section
variable {r r' : Routine} {s s' : Supply} {t : Temp} {ts : List Temp}

theorem Routine.labels_of_spill (hspill : Gives (r.spill t) s r' s') :
    r'.instrs.filterMap Instr.label? = r.instrs.filterMap Instr.label? := by
  obtain ⟨-, blocks, hblocks, rfl⟩ := Routine.blocks_of_spill hspill
  dsimp only
  clear hspill
  generalize r.instrs = instrs at hblocks
  induction hblocks with
  | nil => rfl
  | @cons i block instrs blocks hblock _ ih =>
    rw [flatten_cons, filterMap_append, hblock.filterMap_label?, ih, ← filterMap_append,
      singleton_append]

theorem Labelled.spill (h : Labelled r.instrs) (hspill : Gives (r.spill t) s r' s') : Labelled r'.instrs := by
  have hlabels := Routine.labels_of_spill hspill
  obtain ⟨-, blocks, hblocks, rfl⟩ := Routine.blocks_of_spill hspill
  refine ⟨?_, fun i hi l hl => ?_⟩
  · rw [hlabels]
    exact h.nodup
  · rw [labelIndex?_flatten hblocks (fun _ _ h => h.label?_eq)]
    obtain ⟨i₀, hi₀, block, hrel, hi⟩ := Routine.exists_block hspill hi
    suffices hjumps : i.jumps = i₀.jumps by
      obtain ⟨target, htarget⟩ := h.defined i₀ hi₀ l (hjumps ▸ hl)
      exact ⟨_, by rw [htarget]; rfl⟩
    cases i₀ with
    | label l' =>
      cases hrel
      obtain rfl := mem_singleton.mp hi
      simp [Instr.jumps] at hl
    | oper o =>
      cases i with
      | label l' => simp [Instr.jumps] at hl
      | oper o' =>
        have hne : o'.jumps ≠ [] := ne_nil_of_mem hl
        obtain ⟨new, rfl⟩ := hrel.of_jumps hi hne
        rfl

/-- Code that has grown out of one with the temporaries below `base`. It will move no more than `n`
further ones to the frame, those in `ts` next. -/
structure Settling (base n : Nat) (ts : List Temp) (r : Routine) (s : Supply) (xs : List Strand) : Prop where
  labelled : Labelled r.instrs
  lastSlot : 0 ≤ r.lastSlot
  fp : r.frame.fp < base
  supply : base ≤ s.temps
  grown : Grown r.frame.fp r.instrs xs
  fits : ∀ x ∈ xs, x.Fits base s.temps
  disjointed : Disjointed xs
  left : movesLeft xs ≤ n
  nodup : ts.Nodup
  allowed : ∀ t ∈ ts, t ≠ r.frame.fp ∧ t < s.temps ∧
    ∀ x ∈ xs, (∃ f ∈ x.track, t ∈ f.temps) → t < base ∨ t ∈ x.chosen.map x.name

variable {base n : Nat} {xs : List Strand}

/-- A move leaves room for one move less, if the temporary is in the code at all. -/
theorem Settling.spill (h : Settling base n (t :: ts) r s xs) (hspill : Gives (r.spill t) s r' s') :
    ∃ n' xs', Settling base n' ts r' s' xs' ∧ n' ≤ n ∧ ((∃ i ∈ r.instrs, t ∈ i.temps) → n' < n) := by
  obtain ⟨hfp, hlt, hallowed⟩ := h.allowed t mem_cons_self
  obtain ⟨hnotMem, hnodup⟩ := nodup_cons.mp h.nodup
  have hlastSlot : r'.lastSlot = r.lastSlot + 8 := Routine.lastSlot_of_spill hspill
  have hframe : r'.frame = r.frame := Routine.frame_of_spill hspill
  have hlabelled : Labelled r'.instrs := h.labelled.spill hspill
  have hd : 0 ≤ Routine.lastSlot { r with spilled := r.spilled + Word.size } := by
    have := h.lastSlot
    simp only [Routine.lastSlot, Word.size] at this ⊢
    omega
  simp only [Routine.spill, gives_bind, gives_pure] at hspill
  obtain ⟨blocks, s₁, hblocks, rfl, rfl⟩ := hspill
  obtain ⟨xs', hgrown, hmoves⟩ := h.grown.spill h.fits h.supply (Nat.le_refl _) h.fp hd hfp hlt hallowed hblocks
  have hle : s.temps ≤ s₁.temps := hmoves.supply_le
  refine ⟨movesLeft xs', xs', ⟨hlabelled, ?_, h.fp, Nat.le_trans h.supply hle, hgrown, fun x' hx' => ?_,
    hmoves.disjointed (fun x hx => (h.fits x hx).toNumbered) (Nat.le_refl _) h.disjointed, Nat.le_refl _,
      hnodup, fun u hu => ?_⟩,
    Nat.le_trans hmoves.movesLeft_le h.left, ?_⟩
  · have := h.lastSlot
    omega
  · obtain ⟨x, -, m, m', -, hm', hx⟩ := hmoves.exists_moves hx'
    exact hx.fits.mono_limit hm'
  · obtain ⟨hufp, hult, hu'⟩ := h.allowed u (mem_cons_of_mem _ hu)
    refine ⟨hufp, Nat.lt_of_lt_of_le hult hle, ?_⟩
    rintro x' hx' ⟨f, hf, hmem⟩
    obtain ⟨x, hx, m, m', hm, -, hmove⟩ := hmoves.exists_moves hx'
    -- what may move was there before, so it is chosen still
    refine (hmove.fits.lt_or_own hf hmem).elim .inl fun hown => ?_
    rcases hmove.own u hown with hown | ⟨hge, -⟩
    · refine (hu' x hx (Strand.mentions_of_own hown)).imp_right fun hchosen => ?_
      exact hmove.chosen u hchosen fun heq => hnotMem (heq ▸ hu)
    · exact absurd (Nat.le_trans hm hge) (Nat.not_le.mpr hult)
  · rintro ⟨i, hi, ht⟩
    obtain heq | ⟨x, hx, hmention⟩ := h.grown.foreign i hi t ht
    · exact absurd heq hfp
    · exact Nat.lt_of_lt_of_le (hmoves.movesLeft_lt hx hmention) h.left

theorem Settling.spillAll (h : Settling base n ts r s xs) :
    ∃ p n' xs' s', Gives (r.spillAll ts) s p s' ∧ Settling base n' [] p.1 s' xs' ∧ n' ≤ n ∧
      ((∃ t ∈ ts.head?, ∃ i ∈ r.instrs, t ∈ i.temps) → n' < n) := by
  induction ts generalizing r s n xs with
  | nil => exact ⟨_, n, xs, s, gives_pure.mpr ⟨rfl, rfl⟩, h, Nat.le_refl _, by simp⟩
  | cons t ts ih =>
    obtain ⟨r₁, s₁, hspill⟩ := r.exists_spill t s
    obtain ⟨n₁, xs₁, h₁, hle, hlt⟩ := h.spill hspill
    obtain ⟨p, n', xs', s', hgives, h', hle', -⟩ := ih h₁
    refine ⟨(p.1, .spill t r₁.lastSlot :: p.2), n', xs', s', ?_, h', Nat.le_trans hle' hle, ?_⟩
    · simp only [Routine.spillAll, gives_bind, gives_pure]
      exact ⟨r₁, s₁, hspill, p, s', hgives, rfl, rfl⟩
    · rintro ⟨u, hu, hmention⟩
      obtain rfl : t = u := by simpa using hu
      exact Nat.lt_of_le_of_lt hle' (hlt hmention)

end

theorem picks_subset {near : Nat → Nat → Bool} {n j : Nat} {C : List Nat} : picks near n j C ⊆ C := by
  induction n generalizing j C with
  | zero => exact List.Subset.refl C
  | succ n ih =>
    intro w hw
    simp only [picks, mem_flatMap, mem_cons] at hw
    obtain ⟨i, -, v, hv, rfl | hw⟩ := hw
    · exact core_subset (mem_of_mem_filter hv)
    · exact core_subset (mem_of_mem_erase (ih hw))

namespace Strand

/-- The strand at the beginning of a round. -/
def renew (x : Strand) : Strand := { x with chosen := x.shape.picks }

theorem Fits.renew {base limit : Nat} (h : x.Fits base limit) : x.renew.Fits base limit :=
  { h with
    settles := Shape.settles_picks h.settles
    chosen := fun _ hv => (Shape.mem_inner.mp (picks_subset (mem_dedup.mp hv))).1 }

end Strand

theorem Grown.renew {fp : Temp} {code : List Instr} {xs : List Strand} (h : Grown fp code xs) :
    Grown fp code (xs.map Strand.renew) := by
  induction h with
  | nil => exact .nil
  | label l _ ih => exact .label l ih
  | joint hbody hx _ ih => exact .joint hbody hx ih
  | apart hbefore hafter hjumps hapart hx hy _ ih => exact .apart hbefore hafter hjumps hapart hx hy ih

/-- Rounds of allocation that find no registers: each moves to the frame what colouring leaves out. -/
inductive FailedRounds (registers : Nat) : Nat → Routine → Supply → Routine → Supply → Prop where
  | nil (r : Routine) (s : Supply) : FailedRounds registers 0 r s r s
  | cons {m : Nat} {r r₁ r' : Routine} {s s₁ s' : Supply} {live : Liveness} {passes : Nat}
      {events : List AllocationEvent} (hlive : liveness r.instrs = .ok (live, passes))
      (hcolors : ((Interference.ofCode r.instrs live r.frame.fp).color registers).registers? = none)
      (h : Gives (r.spillAll ((Interference.ofCode r.instrs live r.frame.fp).color registers).spills) s (r₁, events) s₁)
      (hrest : FailedRounds registers m r₁ s₁ r' s') : FailedRounds registers (m + 1) r s r' s'

/-- Colouring finds registers for all temporaries of a routine. -/
def Routine.Colorable (registers : Nat) (r : Routine) (colors : Registers) : Prop :=
  ∃ live passes, liveness r.instrs = .ok (live, passes) ∧
    ((Interference.ofCode r.instrs live r.frame.fp).color registers).registers? = some colors

/-- Allocation goes through these rounds and takes the registers that it finds then, whatever larger number of rounds
is allowed. -/
theorem FailedRounds.exists_gives {m : Nat} {r' : Routine} {s' : Supply}
    (h : FailedRounds registers m r s r' s') {colors : Registers} (hcolors : r'.Colorable registers colors)
    {bound : Nat}
    (hbound : m < bound) (count : Nat) : ∃ a, Gives (Routine.rounds registers bound count r) s a s' ∧
      a.routine = { r' with registers := some colors } := by
  induction h generalizing bound count with
  | nil r s =>
    obtain ⟨bound, rfl⟩ := Nat.exists_eq_succ_of_ne_zero (Nat.ne_of_gt hbound)
    obtain ⟨live, passes, hlive, hcolors⟩ := hcolors
    have hproper : (Interference.ofCode r.instrs live r.frame.fp).Proper :=
      Interference.proper_ofCode (liveness_solves hlive).2.sorted
    simp [Routine.rounds, hlive, hcolors, hproper.conflict?_eq_none hcolors]
  | @cons m r r₁ r' s s₁ s' live passes events hlive hnone hspill _ ih =>
    obtain ⟨bound, rfl⟩ := Nat.exists_eq_succ_of_ne_zero (Nat.ne_zero_of_lt hbound)
    obtain ⟨a, ha, hroutine⟩ := ih hcolors (Nat.lt_of_succ_lt_succ hbound) (count + 1)
    simp only [Routine.rounds, gives_bind, gives_lift, hlive, Except.ok.injEq, and_assoc,
      exists_and_left, exists_eq_left', hnone, gives_pure]
    exact ⟨_, ⟨(r₁, events), s₁, hspill, a, s', ha, rfl, rfl⟩, hroutine⟩

section
variable {r : Routine} {s : Supply} {base n registers : Nat} {xs : List Strand}

theorem Settling.exists_segment {ts : List Temp} (h : Settling base n ts r s xs) (hx : x ∈ xs) :
    ∃ start, Segment r.instrs r.frame.fp start x.track x.Own := by
  obtain ⟨xs₁, xs₂, rfl⟩ := append_of_mem hx
  obtain ⟨pre, mid, post, hcode, hhosts⟩ := h.grown.exists_hosts rfl
  have hdisjoint : ∀ y ∈ xs₁ ++ xs₂, ∀ t, x.Own t → ¬ y.Own t :=
    (pairwise_cons.mp ((pairwise_middle fun h t hy hx => h t hx hy).mp h.disjointed)).1
  rw [hcode]
  refine ⟨_, hhosts.segment (h.fits x hx) h.fp fun t ht => ?_⟩
  refine ht.not_own (h.fits x hx) (fun y hy => h.fits y ?_) h.fp fun y hy t hown hx =>
    hdisjoint y hy t hx hown
  simp only [mem_append, mem_cons] at hy ⊢
  tauto

/-- At the beginning of a round, the strands allow for what colouring spills. -/
theorem Settling.renew (h : Settling base n [] r s xs) (hregisters : 2 ≤ registers) {live : Liveness}
    {passes : Nat} (hlive : liveness r.instrs = .ok (live, passes)) :
    Settling base n ((Interference.ofCode r.instrs live r.frame.fp).color registers).spills r s
      (xs.map Strand.renew) := by
  have hsolves := (liveness_solves hlive).2
  refine ⟨h.labelled, h.lastSlot, h.fp, h.supply, h.grown.renew, ?_, ?_, ?_,
    (TempSet.sorted_ofList _).nodup, fun t ht => ?_⟩
  · exact forall_mem_map.mpr fun x hx => (h.fits x hx).renew
  · exact pairwise_map.mpr h.disjointed
  · simpa only [movesLeft, map_map, Function.comp_def, Strand.renew] using h.left
  · obtain ⟨hfp, i, hi, hmem⟩ := mem_of_spills hlive ht
    refine ⟨hfp, ?_, forall_mem_map.mpr ?_⟩
    · obtain heq | ⟨x, hx, f, hf, hmem⟩ := h.grown.foreign i hi t hmem
      · exact absurd heq hfp
      · exact (h.fits x hx).lt_limit hf hmem
    · rintro x hx ⟨f, hf, hmention⟩
      refine ((h.fits x hx).lt_or_own hf hmention).imp_right ?_
      rintro ⟨v, hv, rfl⟩
      obtain ⟨start, hsegment⟩ := h.exists_segment hx
      have hcluster := (h.fits x hx).cluster hsegment hsolves
      have hcore := (Shape.tidy_spec (h.fits x hx).tidy).2.2.2.2
      have hpicks : v ∈ MmixCompiler.picks x.shape.near 3 0 x.shape.inner :=
        hcluster.mem_picks_of_spill (Interference.proper_ofCode hsolves.sorted) hregisters hcore hv ht
      exact mem_map.mpr ⟨v, mem_dedup.mpr hpicks, rfl⟩

/-- A round that finds no registers leaves room for fewer moves. -/
theorem Settling.exists_round (h : Settling base n [] r s xs) (hregisters : 2 ≤ registers) {live : Liveness}
    {passes : Nat} (hlive : liveness r.instrs = .ok (live, passes))
    (hcolors : ((Interference.ofCode r.instrs live r.frame.fp).color registers).registers? = none) :
    ∃ p s', Gives (r.spillAll ((Interference.ofCode r.instrs live r.frame.fp).color registers).spills) s p s' ∧
      ∃ n' < n, ∃ xs', Settling base n' [] p.1 s' xs' := by
  obtain ⟨p, n', xs', s', hgives, h', -, hlt⟩ := (h.renew hregisters hlive).spillAll
  obtain ⟨t, ht⟩ : ∃ t, ((Interference.ofCode r.instrs live r.frame.fp).color registers).spills.head? = some t := by
    rw [← Option.isSome_iff_exists, isSome_head?]
    simpa [Coloring.registers?] using hcolors
  exact ⟨p, s', hgives, n', hlt ⟨t, ht, (mem_of_spills hlive (mem_of_mem_head? ht)).2⟩, xs', h'⟩

theorem Settling.exists_failedRounds (h : Settling base n [] r s xs) (hregisters : 2 ≤ registers) :
    ∃ m ≤ n, ∃ r' s' colors, FailedRounds registers m r s r' s' ∧ r'.Colorable registers colors := by
  -- every round leaves fewer moves, so there are no more rounds than moves
  induction n using Nat.strong_induction_on generalizing r s xs with
  | h n ih =>
    obtain ⟨live, passes, hlive⟩ := h.labelled.exists_liveness
    cases hcolors : ((Interference.ofCode r.instrs live r.frame.fp).color registers).registers? with
    | some colors => exact ⟨0, Nat.zero_le n, r, s, colors, .nil r s, live, passes, hlive, hcolors⟩
    | none =>
      obtain ⟨⟨r₁, events⟩, s₁, hgives, n', hlt, xs', h'⟩ := h.exists_round hregisters hlive hcolors
      obtain ⟨m, hm, r', s', colors, hrounds, hcolorable⟩ := ih n' hlt h'
      exact ⟨m + 1, by omega, r', s', colors, .cons hlive hcolors hgives hrounds, hcolorable⟩

end

structure Strand.Original (base : Nat) (x : Strand) : Prop where
  fits : x.Fits base base
  own : ∀ t, ¬ x.Own t
  left : x.left = 3

section
variable {base : Nat}

theorem exists_original {s : Footprint} (names : List Nat) (hplain : (s, names.length) ∈ Shape.plain)
    (hnodup : names.Nodup) (hnames : ∀ t ∈ names, t < base) :
    ∃ x : Strand, x.track = [s.map fun v => names.getD v 0] ∧ x.Original base := by
  have hsettles := Shape.settles_plain _ hplain
  have hs := (Shape.tidy_spec (Shape.tidy_of_settles hsettles)).1 s (mem_singleton_self s)
  exact ⟨.original s names, rfl, ⟨Strand.numbered_original hs hnodup hnames, hsettles⟩,
    fun _ => Strand.not_own_original, rfl⟩

theorem exists_reads {us : List Nat} (hlen : us.length ≤ 2) (hus : ∀ u ∈ us, u < base) :
    ∃ x : Strand, x.track = [⟨us, []⟩] ∧ x.Original base := by
  rcases us with _ | ⟨u, _ | ⟨v, _ | ⟨w, us⟩⟩⟩
  · exact exists_original (s := ⟨[], []⟩) [] (by simp [Shape.plain]) nodup_nil (by simp)
  · exact exists_original (s := ⟨[0], []⟩) [u] (by simp [Shape.plain]) (nodup_singleton u) hus
  · by_cases heq : u = v
    · subst heq
      exact exists_original (s := ⟨[0, 0], []⟩) [u] (by simp [Shape.plain]) (nodup_singleton u) (by simpa using hus)
    · exact exists_original (s := ⟨[0, 1], []⟩) [u, v] (by simp [Shape.plain]) (by simpa using heq) hus
  · simp at hlen

theorem exists_writes {ws : List Nat} (hlen : ws.length ≤ 1) (hws : ∀ w ∈ ws, w < base) :
    ∃ x : Strand, x.track = [⟨[], ws⟩] ∧ x.Original base := by
  rcases ws with _ | ⟨w, _ | ⟨_, ws⟩⟩
  · exact exists_original (s := ⟨[], []⟩) [] (by simp [Shape.plain]) nodup_nil (by simp)
  · exact exists_original (s := ⟨[], [0]⟩) [w] (by simp [Shape.plain]) (nodup_singleton w) hws
  · simp at hlen

/-- Code that allocation can begin with: an operation reads two temporaries at most and writes one,
which it does not read unless it reads nothing else. -/
def Mmix.Oper.Plain (fp : Temp) (o : Oper) : Prop :=
  (o.jumps ≠ [] → o.defs = []) ∧
    ((∃ t, o.uses = [t] ∧ o.defs = [t] ∧ t ≠ fp) ∨
      (o.uses.filter (· ≠ fp)).length ≤ 2 ∧ o.defs.length ≤ 1 ∧ ∀ t ∈ o.uses, t ∉ o.defs)

theorem exists_grown {fp : Temp} {code : List Instr} (hplain : ∀ o, .oper o ∈ code → o.Plain fp)
    (hbelow : ∀ i ∈ code, ∀ t ∈ i.temps, t < base) :
    ∃ xs, Grown fp code xs ∧ (∀ x ∈ xs, x.Original base) ∧ movesLeft xs ≤ 6 * code.length := by
  induction code with
  | nil => exact ⟨[], .nil, by simp, Nat.le_refl _⟩
  | cons i code ih =>
    obtain ⟨xs, hgrown, hxs, hleft⟩ := ih (fun o ho => hplain o (mem_cons_of_mem _ ho))
      fun i hi => hbelow i (mem_cons_of_mem _ hi)
    rw [length_cons]
    cases i with
    | label l => exact ⟨xs, .label l hgrown, hxs, by omega⟩
    | oper o =>
      have ho := hbelow (.oper o) mem_cons_self
      obtain ⟨hjumps, ⟨t, huses, hdefs, hfp⟩ | ⟨huses, hdefs, hapart⟩⟩ := hplain o mem_cons_self
      · have hjumps : o.jumps = [] := by
          by_contra h
          simp [hjumps h] at hdefs
        have ht : t < base := ho t (by simp [Instr.temps, Instr.uses, huses])
        obtain ⟨x, htrack, hx⟩ : ∃ x : Strand, x.track = [⟨[t], [t]⟩] ∧ x.Original base :=
          exists_original (s := ⟨[0], [0]⟩) [t] (by simp [Shape.plain]) (nodup_singleton t) (by simpa using ht)
        have hbody : Straight [.oper o] := by simpa [Straight] using hjumps
        refine ⟨x :: xs, .joint hbody ?_ hgrown, by simpa using ⟨hx, hxs⟩, ?_⟩
        · simp [htrack, Instr.footprint, Instr.uses, Instr.defs, huses, hdefs, hfp]
        · simp only [movesLeft, map_cons, sum_cons, hx.left] at hleft ⊢
          omega
      · have hreads : ∀ u ∈ o.uses.filter (· ≠ fp), u < base := fun u hu =>
          ho u (mem_append_left _ (mem_of_mem_filter hu))
        have hwrites : ∀ w ∈ o.defs, w < base := fun w hw => ho w (mem_append_right _ hw)
        obtain ⟨x, hxtrack, hx⟩ := exists_reads huses hreads
        obtain ⟨y, hytrack, hy⟩ := exists_writes hdefs hwrites
        have hnil : Straight [] := by simp [Straight]
        refine ⟨x :: y :: xs, .apart hnil hnil (fun h => ⟨hjumps h, rfl⟩) hapart hxtrack hytrack hgrown,
          by simpa using ⟨hx, hy, hxs⟩, ?_⟩
        simp only [movesLeft, map_cons, sum_cons, hx.left, hy.left] at hleft ⊢
        omega

/-- With two registers or more, allocation of every routine that selection may give finds registers, after no more
failed rounds than six for each instruction. -/
theorem Routine.exists_failedRounds (hregisters : 2 ≤ registers)
    (hlabelled : Labelled r.instrs) (hslot : 0 ≤ r.lastSlot) (hbelow : r.Below s)
    (hplain : ∀ o, .oper o ∈ r.instrs → o.Plain r.frame.fp) : ∃ m ≤ 6 * r.instrs.length, ∃ r' s' colors,
      FailedRounds registers m r s r' s' ∧ r'.Colorable registers colors := by
  obtain ⟨xs, hgrown, hxs, hleft⟩ := exists_grown hplain hbelow.2
  have hsettling : Settling s.temps (6 * r.instrs.length) [] r s xs :=
    ⟨hlabelled, hslot, hbelow.1, Nat.le_refl _, hgrown, fun x hx => (hxs x hx).fits,
      pairwise_of_forall_mem_list fun x hx _ _ t ht => absurd ht ((hxs x hx).own t), hleft, nodup_nil, by simp⟩
  exact hsettling.exists_failedRounds hregisters

theorem Routine.lt_roundBound (r : Routine) : 6 * r.instrs.length < r.roundBound := by
  have hlt : r.instrs.length < 2 ^ r.instrs.length := Nat.lt_two_pow_self
  rw [Routine.roundBound, Nat.one_shiftLeft, Nat.pow_add]
  omega

theorem Routine.exists_allocate (hregisters : 2 ≤ registers)
    (hlabelled : Labelled r.instrs) (hslot : 0 ≤ r.lastSlot) (hbelow : r.Below s)
    (hplain : ∀ o, .oper o ∈ r.instrs → o.Plain r.frame.fp) :
    ∃ a s', Gives (r.allocate registers) s a s' := by
  obtain ⟨m, hm, r', s', colors, hrounds, hcolors⟩ := r.exists_failedRounds hregisters hlabelled hslot hbelow hplain
  obtain ⟨a, ha, -⟩ := hrounds.exists_gives hcolors (Nat.lt_of_le_of_lt hm r.lt_roundBound) 0
  exact ⟨a, s', ha⟩

end
end MmixCompiler
