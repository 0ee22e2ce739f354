import MmixCompiler.Proofs.Register.Simplification

/-! Tracks: what a run of instructions reads and writes. When a temporary moves to the frame the
tracks of the instructions that mention it grow by short-lived temporaries, which may have to move
in their turn. Up to the names of temporaries there are few tracks that come about in this way, and
trying them all shows that none can go on growing. -/

namespace MmixCompiler

open List

/-- What an instruction reads and writes. -/
structure Footprint where
  uses : List Nat
  defs : List Nat
deriving DecidableEq

namespace Footprint

def temps (s : Footprint) : List Nat := s.uses ++ s.defs

def map (f : Nat → Nat) (s : Footprint) : Footprint := ⟨s.uses.map f, s.defs.map f⟩

/-- The track of working out the address of a word in the frame. It is longer for a negative distance. -/
def slot (neg : Bool) (a : Nat) : List Footprint :=
  ⟨[], [a]⟩ :: List.replicate (bif neg then 5 else 4) ⟨[a], [a]⟩

def fetch (neg : Bool) (new a : Nat) : List Footprint := slot neg a ++ [⟨[a], [new]⟩]

def keep (neg : Bool) (new a : Nat) : List Footprint := slot neg a ++ [⟨[new, a], []⟩]

def rename (t new : Nat) (s : Footprint) : Footprint := s.map fun u => if u = t then new else u

/-- The track in place of a footprint when `t` moves to the frame, and the next number after those
that it takes. -/
def spill (neg : Bool) (t next : Nat) (s : Footprint) : List Footprint × Nat :=
  match s.uses.contains t, s.defs.contains t with
  | false, false => ([s], next)
  | true, false => (fetch neg next (next + 1) ++ [s.rename t next], next + 2)
  | false, true => (s.rename t next :: keep neg next (next + 1), next + 2)
  | true, true => (fetch neg next (next + 1) ++ s.rename t next :: keep neg next (next + 2), next + 3)

def spillAll (neg : Bool) (t : Nat) : Nat → List Footprint → List Footprint × Nat
  | next, [] => ([], next)
  | next, s :: ss =>
    let (ss', next') := spillAll neg t (s.spill neg t next).2 ss
    ((s.spill neg t next).1 ++ ss', next')

def before (s : Footprint) (out : List Nat) : List Nat :=
  s.uses ++ out.filter fun t => !s.defs.contains t

/-- What is live before a track if nothing is live after it. -/
def live : List Footprint → List Nat
  | [] => []
  | s :: ss => s.before (live ss)

/-- What is live before a track, and at the places within it where that changes. -/
def lives : List Footprint → List Nat × List (List Nat)
  | [] => ([], [])
  | s :: ss =>
    let r := lives ss
    let b := s.before r.1
    (b, if b = r.1 then r.2 else b :: r.2)

/-- Whether two are live at the same place of a track. -/
def meets (sets : List (List Nat)) (u v : Nat) : Bool :=
  u != v && sets.any fun b => b.contains u && b.contains v

/-- Whether everything that a track writes, except the given, is live behind. -/
def needed (outer : List Nat) : List Footprint → Bool
  | [] => true
  | s :: ss => s.defs.all (fun t => outer.contains t || (live ss).contains t) && needed outer ss

/-- Whether a track mentions the given only in what it reads first and last, or is a single
footprint. -/
def encloses (outer : List Nat) : List Footprint → Bool
  | [] | [_] => true
  | s :: ss =>
    s.defs.all (fun t => !outer.contains t) &&
      ss.dropLast.all fun s => s.temps.all fun t => !outer.contains t

end Footprint

open Footprint

/-- A track up to names. The numbers below `next` stand for temporaries, those of `outer` for
temporaries of the original code. -/
structure Shape where
  track : List Footprint
  outer : List Nat
  next : Nat

namespace Shape

/-- The temporaries that came about by moving others to the frame. -/
def inner (σ : Shape) : List Nat :=
  (List.range σ.next).filter fun v => !σ.outer.contains v && σ.track.any fun s => s.temps.contains v

/-- A footprint that mentions temporaries of the original only, which are all below `n`. -/
def single (s : Footprint) (n : Nat) : Shape := ⟨[s], List.range n, n⟩

def spill (neg : Bool) (σ : Shape) (t : Nat) : Shape :=
  ⟨(spillAll neg t σ.next σ.track).1, σ.outer.filter (· ≠ t), (spillAll neg t σ.next σ.track).2⟩

def near (σ : Shape) : Nat → Nat → Bool := meets (lives σ.track).2

/-- The inner temporaries that colouring may spill. -/
def picks (σ : Shape) : List Nat := (MmixCompiler.picks σ.near 3 0 σ.inner).dedup

/-- What the liveness of inner temporaries in any code depends on: they live within the track, and
the others are not touched there. -/
def tidy (σ : Shape) : Bool :=
  σ.track.all (fun s => s.temps.all (· < σ.next)) &&
    σ.inner.all (fun v => !(live σ.track).contains v && (lives σ.track).2.any (·.contains v)) &&
    needed σ.outer σ.track && encloses σ.outer σ.track && (core σ.near 3 σ.inner).isEmpty

/-- Whether at most `n` temporaries of a shape move to the frame, whatever happens elsewhere. Within a
round of allocation, those in `chosen` still may; in the next, those that can be picked then. -/
def settles : Nat → Shape → List Nat → Bool
  | 0, σ, chosen => σ.tidy && σ.outer.isEmpty && chosen.isEmpty && σ.picks.isEmpty
  | n + 1, σ, chosen =>
    σ.tidy &&
      (σ.outer ++ chosen).all (fun t => settles n (σ.spill false t) (chosen.filter (· ≠ t))) &&
      (σ.outer ++ σ.picks).all fun t => settles n (σ.spill false t) (σ.picks.filter (· ≠ t))

/-- Footprints that read or write, or update a temporary, up to names. -/
def plain : List (Footprint × Nat) :=
  [(⟨[], []⟩, 0), (⟨[0], []⟩, 1), (⟨[0, 0], []⟩, 1), (⟨[0, 1], []⟩, 2), (⟨[], [0]⟩, 1), (⟨[0], [0]⟩, 1)]

theorem settles_plain : ∀ p ∈ plain, settles 3 (single p.1 p.2) [] = true := by decide +kernel

section
variable {σ : Shape} {n t : Nat} {chosen : List Nat}

theorem tidy_of_settles (h : settles n σ chosen = true) : σ.tidy = true := by
  cases n with
  | zero => simp only [settles, Bool.and_eq_true] at h; exact h.1.1.1
  | succ n => simp only [settles, Bool.and_eq_true] at h; exact h.1.1

/-- A new round may begin at any time. -/
theorem settles_picks (h : settles n σ chosen = true) : settles n σ σ.picks = true := by
  cases n with
  | zero => simp only [settles, Bool.and_eq_true] at h ⊢; exact ⟨⟨h.1.1, h.2⟩, h.2⟩
  | succ n => simp only [settles, Bool.and_eq_true] at h ⊢; exact ⟨⟨h.1.1, h.2⟩, h.2⟩

theorem settles_spill (h : settles n σ chosen = true) (ht : t ∈ σ.outer ∨ t ∈ chosen) :
    ∃ m, n = m + 1 ∧ settles m (σ.spill false t) (chosen.filter (· ≠ t)) = true := by
  cases n with
  | zero =>
    simp only [settles, Bool.and_eq_true, List.isEmpty_iff] at h
    rw [h.1.1.2, h.1.2] at ht
    simp at ht
  | succ n =>
    simp only [settles, Bool.and_eq_true, List.all_eq_true, mem_append] at h
    exact ⟨n, rfl, h.1.2 t ht⟩

theorem mem_inner {v : Nat} : v ∈ σ.inner ↔ v < σ.next ∧ v ∉ σ.outer ∧ ∃ s ∈ σ.track, v ∈ s.temps := by
  simp [inner]

theorem nodup_inner : σ.inner.Nodup := nodup_range.filter _

end
end Shape

namespace Footprint

variable {neg : Bool} {f : Nat → Nat} {k m n t : Nat} {s : Footprint} {ss : List Footprint}

theorem le_snd_spill : n ≤ (s.spill neg t n).2 := by
  unfold spill
  split <;> simp

theorem le_snd_spillAll : n ≤ (spillAll neg t n ss).2 := by
  induction ss generalizing n with
  | nil => exact Nat.le_refl n
  | cons s ss ih => exact Nat.le_trans le_snd_spill ih

theorem contains_map {ts : List Nat} (h : ∀ u ∈ ts, f u = f k → u = k) : (ts.map f).contains (f k) = ts.contains k := by
  rw [Bool.eq_iff_iff]
  simp only [contains_iff_mem, mem_map]
  constructor
  · rintro ⟨u, hu, heq⟩
    exact h u hu heq ▸ hu
  · exact fun hk => ⟨k, hk, rfl⟩

theorem rename_map (h : ∀ u ∈ s.temps, f u = f k → u = k) : (s.map f).rename (f k) (f m) = (s.rename k m).map f := by
  have heq : ∀ ts : List Nat, (∀ u ∈ ts, f u = f k → u = k) → (ts.map f).map (fun u => if u = f k then f m else u) =
        (ts.map fun u => if u = k then m else u).map f := fun ts hts => by
    rw [map_map, map_map]
    refine map_congr_left fun u hu => ?_
    by_cases huk : u = k
    · simp [huk]
    · simp [huk, mt (hts u hu) huk]
  rw [rename, rename, map, map, map, map]
  simp only
  rw [heq s.uses fun u hu => h u (mem_append_left _ hu), heq s.defs fun u hu => h u (mem_append_right _ hu)]

theorem fetch_map : (fetch neg m n).map (map f) = fetch neg (f m) (f n) := by cases neg <;> rfl

theorem keep_map : (keep neg m n).map (map f) = keep neg (f m) (f n) := by cases neg <;> rfl

/-- Moving a temporary to the frame does not depend on names. -/
theorem spill_map (hf : ∀ i, f (m + i) = n + i) (h : ∀ u ∈ s.temps, f u = f k → u = k) : (s.map f).spill neg (f k) n =
      ((s.spill neg k m).1.map (map f), n + ((s.spill neg k m).2 - m)) := by
  have hm : f m = n := hf 0
  have huses : (s.map f).uses.contains (f k) = s.uses.contains k :=
    contains_map fun u hu => h u (mem_append_left _ hu)
  have hdefs : (s.map f).defs.contains (f k) = s.defs.contains k :=
    contains_map fun u hu => h u (mem_append_right _ hu)
  have hrename := rename_map (m := m) h
  rw [hm] at hrename
  unfold spill
  rw [huses, hdefs]
  split <;> simp [hrename, fetch_map, keep_map, hm, hf]

theorem spillAll_map (neg : Bool) (hf : ∀ i, f (m + i) = n + i) (h : ∀ s ∈ ss, ∀ u ∈ s.temps, f u = f k → u = k) :
    spillAll neg (f k) n (ss.map (map f)) =
      ((spillAll neg k m ss).1.map (map f), n + ((spillAll neg k m ss).2 - m)) := by
  induction ss generalizing m n with
  | nil => simp [spillAll]
  | cons s ss ih =>
    have hle : m ≤ (s.spill neg k m).2 := le_snd_spill
    have hle' : (s.spill neg k m).2 ≤ (spillAll neg k (s.spill neg k m).2 ss).2 := le_snd_spillAll
    have hf' : ∀ i, f ((s.spill neg k m).2 + i) = n + ((s.spill neg k m).2 - m) + i := fun i => by
      have := hf ((s.spill neg k m).2 - m + i)
      rw [show m + ((s.spill neg k m).2 - m + i) = (s.spill neg k m).2 + i by omega] at this
      omega
    simp only [map_cons, spillAll]
    rw [spill_map hf (h s (by simp)), ih hf' fun s' hs' => h s' (mem_cons_of_mem _ hs')]
    simp only [map_append, Prod.mk.injEq, true_and]
    omega

theorem mem_before {out : List Nat} : t ∈ s.before out ↔ t ∈ s.uses ∨ t ∈ out ∧ t ∉ s.defs := by
  simp [before]

theorem live_drop {j : Nat} (h : ss[j]? = some s) : live (ss.drop j) = s.before (live (ss.drop (j + 1))) := by
  obtain ⟨hlt, rfl⟩ := List.getElem?_eq_some_iff.mp h
  rw [drop_eq_getElem_cons hlt, live]

theorem fst_lives : (lives ss).1 = live ss := by
  induction ss with
  | nil => rfl
  | cons s ss ih => simp only [lives, live, ih]

theorem any_lives {P : List Nat → Bool} (hP : P [] = false) :
    (lives ss).2.any P = true ↔ ∃ j, P (live (ss.drop j)) = true := by
  induction ss with
  | nil => simp [lives, live, hP]
  | cons s ss ih =>
    have hsplit : (∃ j, P (live ((s :: ss).drop j)) = true) ↔
        P (live (s :: ss)) = true ∨ ∃ j, P (live (ss.drop j)) = true := by
      constructor
      · rintro ⟨_ | j, hj⟩
        · exact .inl hj
        · exact .inr ⟨j, hj⟩
      · rintro (h | ⟨j, hj⟩)
        · exact ⟨0, h⟩
        · exact ⟨j + 1, hj⟩
    have hlive : s.before (lives ss).1 = live (s :: ss) := by rw [fst_lives, live]
    rw [hsplit, ← ih]
    simp only [lives, hlive]
    split
    · rename_i heq
      refine ⟨.inr, fun h => h.elim (fun h => ih.mpr ⟨0, ?_⟩) id⟩
      rwa [heq, fst_lives] at h
    · simp

theorem meets_iff {u v : Nat} : meets (lives ss).2 u v = true ↔
    u ≠ v ∧ ∃ j, u ∈ live (ss.drop j) ∧ v ∈ live (ss.drop j) := by
  rw [meets, Bool.and_eq_true, any_lives (by simp)]
  simp

theorem live_subset : ∀ t ∈ live ss, ∃ s ∈ ss, t ∈ s.uses := by
  intro t ht
  induction ss with
  | nil => simp [live] at ht
  | cons s ss ih =>
    rcases mem_before.mp ht with ht | ⟨ht, -⟩
    · exact ⟨s, by simp, ht⟩
    · obtain ⟨s', hs', ht⟩ := ih ht
      exact ⟨s', mem_cons_of_mem _ hs', ht⟩

section
variable {outer : List Nat}

theorem needed_spec (h : needed outer ss = true) (hs : ss[k]? = some s) (ht : t ∈ s.defs)
    (hout : t ∉ outer) : t ∈ live (ss.drop (k + 1)) := by
  induction ss generalizing k with
  | nil => simp at hs
  | cons s' ss ih =>
    simp only [needed, Bool.and_eq_true, List.all_eq_true, Bool.or_eq_true, contains_iff_mem] at h
    cases k with
    | zero =>
      obtain rfl : s' = s := by simpa using hs
      exact (h.1 t ht).resolve_left hout
    | succ k => exact ih h.2 (by simpa using hs)

theorem encloses_spec (h : encloses outer ss = true) (hs : ss[k]? = some s) (hk : k + 1 < ss.length) :
    (∀ t ∈ s.defs, t ∉ outer) ∧ (0 < k → ∀ t ∈ s.uses, t ∉ outer) := by
  rcases ss with _ | ⟨s', _ | ⟨s'', ss⟩⟩
  · cases hs
  · exact absurd hk (by simp)
  rcases k with _ | k
  · obtain rfl : s' = s := by simpa using hs
    simp only [encloses, Bool.and_eq_true, List.all_eq_true, Bool.not_eq_true',
      contains_eq_mem, decide_eq_false_iff_not] at h
    exact ⟨h.1, fun hpos => absurd hpos (Nat.lt_irrefl 0)⟩
  · simp only [encloses, Bool.and_eq_true, List.all_eq_true, Bool.not_eq_true',
      contains_eq_mem, decide_eq_false_iff_not] at h
    have hmem : s ∈ (s'' :: ss).dropLast := by
      refine mem_of_getElem? (i := k) ?_
      rw [getElem?_dropLast, if_pos (by simpa using hk)]
      simpa using hs
    exact ⟨fun t ht => h.2 s hmem t (mem_append_right _ ht),
      fun _ t ht => h.2 s hmem t (mem_append_left _ ht)⟩

theorem live_map (h : ∀ u ∈ ss.flatMap temps, ∀ v ∈ ss.flatMap temps, f u = f v → u = v) :
    live (ss.map (map f)) = (live ss).map f := by
  induction ss with
  | nil => rfl
  | cons s ss ih =>
    rw [map_cons, live, live, ih fun u hu v hv =>
      h u (mem_append_right _ hu) v (mem_append_right _ hv)]
    simp only [before, map, map_append, filter_map]
    congr 2
    refine filter_congr fun t ht => ?_
    obtain ⟨s', hs', ht⟩ := live_subset t ht
    have htemps : t ∈ (s :: ss).flatMap temps :=
      mem_flatMap.mpr ⟨s', mem_cons_of_mem _ hs', mem_append_left _ ht⟩
    rw [Function.comp_apply, contains_map fun u hu heq => h u ?_ t htemps heq]
    exact mem_append_left _ (mem_append_right _ hu)

end

section
variable {u : Nat}

theorem temps_map {f : Nat → Nat} : (s.map f).temps = s.temps.map f := by
  simp [temps, map]

theorem mem_temps_rename {m : Nat} (hu : u ∈ (s.rename t m).temps) : u = m ∨ u ∈ s.temps ∧ u ≠ t := by
  rw [rename, temps_map] at hu
  obtain ⟨w, hw, rfl⟩ := mem_map.mp hu
  by_cases hwt : w = t
  · exact .inl (if_pos hwt)
  · exact .inr (by simpa [hwt] using hw)

theorem mem_temps_slot (hs : s ∈ slot neg n) (hu : u ∈ s.temps) : u = n := by
  rcases mem_cons.mp hs with rfl | hs
  · simpa [temps] using hu
  · simpa [eq_of_mem_replicate hs, temps] using hu

theorem mem_temps_fetch {m : Nat} (hs : s ∈ fetch neg m n) (hu : u ∈ s.temps) : u = m ∨ u = n := by
  rcases mem_append.mp hs with hs | hs
  · exact .inr (mem_temps_slot hs hu)
  · simpa [mem_singleton.mp hs, temps, or_comm] using hu

theorem mem_temps_keep {m : Nat} (hs : s ∈ keep neg m n) (hu : u ∈ s.temps) : u = m ∨ u = n := by
  rcases mem_append.mp hs with hs | hs
  · exact .inr (mem_temps_slot hs hu)
  · simpa [mem_singleton.mp hs, temps] using hu

theorem mem_temps_spill {s' : Footprint} (hs : s' ∈ (s.spill neg t n).1) (hu : u ∈ s'.temps) :
    u ∈ s.temps ∧ u ≠ t ∨ n ≤ u ∧ u < (s.spill neg t n).2 := by
  unfold spill at hs ⊢
  split at hs
  · rename_i huses hdefs
    obtain rfl := mem_singleton.mp hs
    refine .inl ⟨hu, fun heq => ?_⟩
    simp_all [temps]
  all_goals
    simp only [mem_append, mem_cons, not_mem_nil, or_false] at hs
  · rcases hs with hs | rfl
    · exact .inr (by have := mem_temps_fetch hs hu; simp; omega)
    · exact (mem_temps_rename hu).elim (fun h => .inr (by simp; omega)) .inl
  · rcases hs with rfl | hs
    · exact (mem_temps_rename hu).elim (fun h => .inr (by simp; omega)) .inl
    · exact .inr (by have := mem_temps_keep hs hu; simp; omega)
  · rcases hs with hs | rfl | hs
    · exact .inr (by have := mem_temps_fetch hs hu; simp; omega)
    · exact (mem_temps_rename hu).elim (fun h => .inr (by simp; omega)) .inl
    · exact .inr (by have := mem_temps_keep hs hu; simp; omega)

theorem mem_temps_spillAll {s' : Footprint} (hs : s' ∈ (spillAll neg t n ss).1) (hu : u ∈ s'.temps) :
    (∃ s ∈ ss, u ∈ s.temps) ∧ u ≠ t ∨ n ≤ u ∧ u < (spillAll neg t n ss).2 := by
  induction ss generalizing n with
  | nil => simp [spillAll] at hs
  | cons s ss ih =>
    have hle : n ≤ (s.spill neg t n).2 := le_snd_spill
    have hle' : (s.spill neg t n).2 ≤ (spillAll neg t (s.spill neg t n).2 ss).2 := le_snd_spillAll
    rcases mem_append.mp hs with hs | hs
    · rcases mem_temps_spill hs hu with ⟨h, hne⟩ | h
      · exact .inl ⟨⟨s, mem_cons_self, h⟩, hne⟩
      · exact .inr ⟨h.1, Nat.lt_of_lt_of_le h.2 hle'⟩
    · rcases ih hs with ⟨⟨s', hs', h⟩, hne⟩ | h
      · exact .inl ⟨⟨s', mem_cons_of_mem _ hs', h⟩, hne⟩
      · exact .inr ⟨Nat.le_trans hle h.1, h.2⟩

theorem spill_of_notMem (h : t ∉ s.temps) : s.spill neg t n = ([s], n) := by
  simp only [temps, mem_append, not_or] at h
  simp [spill, h]

theorem spillAll_of_notMem (h : ∀ s ∈ ss, t ∉ s.temps) : spillAll neg t n ss = (ss, n) := by
  induction ss with
  | nil => rfl
  | cons s ss ih =>
    rw [spillAll, spill_of_notMem (h s mem_cons_self), ih fun s' hs' => h s' (mem_cons_of_mem _ hs')]
    rfl

theorem spillAll_append {ss' : List Footprint} : spillAll neg t n (ss ++ ss') =
    ((spillAll neg t n ss).1 ++ (spillAll neg t (spillAll neg t n ss).2 ss').1,
      (spillAll neg t (spillAll neg t n ss).2 ss').2) := by
  induction ss generalizing n with
  | nil => rfl
  | cons s ss ih => simp only [cons_append, spillAll, ih, append_assoc]

end
end Footprint

theorem Shape.tidy_spec {σ : Shape} (h : σ.tidy = true) : (∀ s ∈ σ.track, ∀ t ∈ s.temps, t < σ.next) ∧
      (∀ v ∈ σ.inner, v ∉ live σ.track ∧ ∃ k, v ∈ live (σ.track.drop k)) ∧
      needed σ.outer σ.track = true ∧ encloses σ.outer σ.track = true ∧ core σ.near 3 σ.inner = [] := by
  simp only [tidy, Bool.and_eq_true, List.all_eq_true, decide_eq_true_eq, List.isEmpty_iff] at h
  obtain ⟨⟨⟨⟨hnext, hinner⟩, hneeded⟩, hencloses⟩, hcore⟩ := h
  refine ⟨hnext, fun v hv => ?_, hneeded, hencloses, hcore⟩
  obtain ⟨hnot, hsome⟩ := hinner v hv
  obtain ⟨k, hk⟩ := (any_lives (P := fun b => b.contains v) rfl).mp hsome
  exact ⟨by simpa using hnot, k, by simpa using hk⟩

end MmixCompiler
