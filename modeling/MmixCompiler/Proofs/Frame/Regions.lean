import Mathlib.Algebra.BigOperators.Ring.List
import MmixCompiler.Proofs.Frame.Words
import MmixCompiler.Proofs.Mmix.Octabyte

/-! Regions of a frame, by their offsets from the frame pointer. Regions that follow each other without gaps do not
overlap, and neither do the octabytes that they fill in memory. The variables of a function are in such regions. -/

namespace MmixCompiler

open Mmix List

/-- Bytes from an offset on. -/
structure Region where
  offset : Int
  size : Int
deriving DecidableEq

namespace Region

instance : Membership Int Region := ⟨fun g i => g.offset ≤ i ∧ i < g.offset + g.size⟩

theorem mem_iff {g : Region} {i : Int} : i ∈ g ↔ g.offset ≤ i ∧ i < g.offset + g.size := Iff.rfl

/-- No byte is in both. -/
def Apart (g h : Region) : Prop := ∀ i, i ∈ g → i ∉ h

def word (offset : Int) : Region := ⟨offset, Word.size⟩

@[simp] theorem offset_word (i : Int) : (word i).offset = i := rfl

@[simp] theorem size_word (i : Int) : (word i).size = 8 := rfl

/-- The octabyte where a region begins, given the address that offsets count from. -/
def first (g : Region) (base : Octa) : BitVec 61 := cell (base + .ofInt 64 g.offset)

def octabytes (g : Region) (base : Octa) : List (BitVec 61) :=
  (List.range (g.size / Word.size).toNat).map fun k : Nat => (word (g.offset + Word.size * k)).first base

/-- Regions that follow each other downwards, without gaps, from one offset to another. -/
inductive Tiles : Int → Int → List Region → Prop where
  | nil (i : Int) : Tiles i i []
  | cons {high low : Int} {g : Region} {gs : List Region} (hsize : 0 ≤ g.size) (htop : g.offset + g.size = high)
      (hrest : Tiles g.offset low gs) : Tiles high low (g :: gs)

namespace Tiles

variable {high mid low : Int} {gs hs : List Region}

theorem append (h : Tiles high mid gs) (h' : Tiles mid low hs) : Tiles high low (gs ++ hs) := by
  induction h with
  | nil => exact h'
  | cons hsize htop _ ih => exact .cons hsize htop (ih h')

theorem le (h : Tiles high low gs) : low ≤ high := by
  induction h with
  | nil => exact Int.le_refl _
  | cons => omega

theorem exists_mem_iff (h : Tiles high low gs) {i : Int} : (∃ g ∈ gs, i ∈ g) ↔ low ≤ i ∧ i < high := by
  induction h with
  | nil => simp
  | @cons high low g gs hsize htop hrest ih =>
    have hle := hrest.le
    rw [exists_mem_cons_iff, ih, mem_iff]
    omega

theorem pairwise_apart (h : Tiles high low gs) : gs.Pairwise Apart := by
  induction h with
  | nil => exact .nil
  | @cons high low g gs hsize htop hrest ih =>
    refine pairwise_cons.mpr ⟨fun g' hg' i hi hi' => ?_, ih⟩
    have hbelow := (hrest.exists_mem_iff.mp ⟨g', hg', hi'⟩).2
    exact absurd hi.1 (Int.not_le.mpr hbelow)

theorem words (high : Int) (n : Nat) :
    Tiles high (high - Word.size * n) ((List.range n).map fun k : Nat => word (high - Word.size * (k + 1))) := by
  induction n with
  | zero => simpa using nil high
  | succ n ih =>
    rw [range_succ, map_append]
    refine ih.append (.cons (by simp) ?_ ?_)
    · simp only [offset_word, size_word, Word.size]
      omega
    · simpa using nil (high - Word.size * (n + 1))

theorem dvd_offset (h : Tiles high low gs) (hhigh : Word.size ∣ high) (hsizes : ∀ g ∈ gs, Word.size ∣ g.size) :
    Word.size ∣ low ∧ ∀ g ∈ gs, Word.size ∣ g.offset := by
  induction h with
  | nil => exact ⟨hhigh, by simp⟩
  | @cons high low g gs hsize htop hrest ih =>
    obtain ⟨hg, hsizes⟩ := forall_mem_cons.mp hsizes
    have hoffset : Word.size ∣ g.offset := (Int.dvd_add_left hg).mp (htop ▸ hhigh)
    obtain ⟨hlow, hoffsets⟩ := ih hoffset hsizes
    exact ⟨hlow, forall_mem_cons.mpr ⟨hoffset, hoffsets⟩⟩

end Tiles

theorem first_word (i : Int) (base : Octa) : (word i).first base = slot base (-i) := by
  rw [first, slot, word, BitVec.ofInt_neg, BitVec.sub_eq_add_neg, BitVec.neg_neg]

theorem first_inj {base : Octa} {i j : Int} (hi : Word.size ∣ i) (hj : Word.size ∣ j) (hnear : (i - j).natAbs < 2 ^ 64)
    (h : (word i).first base = (word j).first base) : i = j := by
  have hne : ∀ {i j : Int}, Word.size ∣ i → Word.size ∣ j → (i - j).natAbs < 2 ^ 64 → i < j →
      (word i).first base ≠ (word j).first base := by
    rintro _ _ ⟨m, rfl⟩ ⟨n, rfl⟩ hnear hlt
    unfold Word.size at hnear hlt
    have hdistance : -(Word.size * m) = -(Word.size * n) + 8 * ((n - m).toNat : Nat) := by
      unfold Word.size
      omega
    rw [first_word, first_word, hdistance]
    exact slot_ne (by omega) (by omega)
  rcases Int.lt_trichotomy i j with hlt | heq | hgt
  · exact absurd h (hne hi hj hnear hlt)
  · exact heq
  · exact absurd h.symm (hne hj hi (by omega) hgt)

theorem mem_octabytes {g : Region} {base : Octa} {x : BitVec 61} (hg : Word.size ∣ g.offset)
    (h : x ∈ g.octabytes base) :
    ∃ i ∈ g, Word.size ∣ i ∧ x = (word i).first base := by
  obtain ⟨k, hk, rfl⟩ := mem_map.mp h
  rw [mem_range] at hk
  refine ⟨_, ?_, Int.dvd_add hg (Int.dvd_mul_right ..), rfl⟩
  rw [mem_iff]
  unfold Word.size at hk ⊢
  omega

theorem Tiles.pairwise_octabytes {high low : Int} {gs : List Region} (h : Tiles high low gs) (hhigh : Word.size ∣ high)
    (hsizes : ∀ g ∈ gs, Word.size ∣ g.size) (hsmall : high - low ≤ 2 ^ 64) (base : Octa) :
    gs.Pairwise fun g g' => List.Disjoint (g.octabytes base) (g'.octabytes base) := by
  obtain ⟨-, hoffsets⟩ := h.dvd_offset hhigh hsizes
  refine h.pairwise_apart.imp_of_mem fun {g g'} hg hg' hapart x hx hx' => ?_
  obtain ⟨i, hi, hdvd, rfl⟩ := mem_octabytes (hoffsets g hg) hx
  obtain ⟨j, hj, hdvd', heq⟩ := mem_octabytes (hoffsets g' hg') hx'
  have hwithin := h.exists_mem_iff.mp ⟨g, hg, hi⟩
  have hwithin' := h.exists_mem_iff.mp ⟨g', hg', hj⟩
  obtain rfl := first_inj hdvd hdvd' (by omega) heq
  exact hapart i hi hj

/-- The static link, where the result is left. -/
def link : Region := word 0

def params (n : Nat) : List Region := (List.range n).map fun k : Nat => word (Word.size * (k + 1))

theorem tiles_params (n : Nat) : Tiles (Word.size * (n + 1)) 0 ((params n).reverse ++ [link]) := by
  have hparams : Tiles (Word.size * (n + 1)) Word.size (params n).reverse := by
    induction n with
    | zero => exact .nil _
    | succ n ih =>
      rw [params, range_succ, map_append, reverse_append]
      refine .cons (by simp) ?_ ih
      simp only [offset_word, size_word, Word.size]
      omega
  exact hparams.append (.cons (by decide) rfl (.nil 0))

end Region

/-- The layout has a region for a variable, in the frames on a level. -/
def Layout.Puts (l : Layout) (depth : Nat) (v : Decl) (g : Region) : Prop :=
  l.accesses[v.id]? = some (.relative g.offset depth g.size)

theorem Registry.dvd_extentTo (r : Registry) (n : Nat) (t : TypeId) : Word.size ∣ r.extentTo n t := by
  induction n generalizing t with
  | zero => exact Int.dvd_zero _
  | succ n ih =>
    rw [extentTo]
    split
    · exact Int.dvd_refl _
    · exact Int.dvd_refl _
    · exact Int.dvd_refl _
    · exact Int.dvd_refl _
    · exact Int.dvd_zero _
    · exact Int.dvd_zero _
    · exact Dvd.dvd.mul_left (ih _) _
    · refine dvd_sum fun b hb => ?_
      obtain ⟨f, -, rfl⟩ := mem_map.mp hb
      exact ih f.2

theorem Program.Analyzed.dvd_declBytes {p : Program} {a : Analysis} (h : p.Analyzed a) {d : Decl} (hd : p.Has (.decl d))
    {b : Int} (hb : a.declBytes d = .ok b) : 0 ≤ b ∧ Word.size ∣ b := by
  obtain ⟨b', hb', hle⟩ := h.exists_declBytes hd
  obtain rfl : b' = b := Except.ok.inj (hb'.symm.trans hb)
  obtain ⟨t, -, ht⟩ := bind_eq_ok.mp hb
  cases ht
  refine ⟨hle, ?_⟩
  rw [show a.registry.bytes t = _ from h.typings.bytes_eq_extent t]
  exact a.registry.dvd_extentTo _ t

section
variable {a : Analysis} {depth : Nat} {ds : List Decl} {places : List (NodeId × Access)}

theorem Analysis.tiles_placeLocals {function : Decl} {total all : Int}
    (h : a.placeLocals function depth total ds = .ok (all, places))
    (hds : ∀ d ∈ ds, ∀ b, a.declBytes d = .ok b → 0 ≤ b ∧ Word.size ∣ b) :
    ∃ gs, List.Forall₂ (fun (d : Decl) g => (d.id, .relative g.offset depth g.size) ∈ places) ds gs ∧
      Region.Tiles (-total) (-all) gs ∧ ∀ g ∈ gs, Word.size ∣ g.size := by
  induction ds generalizing total places with
  | nil =>
    cases h
    exact ⟨[], .nil, .nil _, by simp⟩
  | cons d ds ih =>
    obtain ⟨hd, hds⟩ := forall_mem_cons.mp hds
    obtain ⟨b, hb, h⟩ := bind_eq_ok.mp h
    obtain ⟨hb, hdvd⟩ := hd b hb
    split at h
    · cases h
    · next total' htotal =>
      obtain ⟨-, rfl⟩ := Word.checked_eq_some_iff.mp htotal
      obtain ⟨⟨all', places'⟩, hrest, h⟩ := bind_eq_ok.mp h
      cases h
      obtain ⟨gs, hplaces, htiles, hsizes⟩ := ih hrest hds
      refine ⟨⟨-(total + b), b⟩ :: gs, ?_, .cons hb ?_ htiles, forall_mem_cons.mpr ⟨hdvd, hsizes⟩⟩
      · exact .cons mem_cons_self (hplaces.imp fun _ _ hmem => mem_cons_of_mem _ hmem)
      · dsimp only
        omega

theorem Analysis.words_placeParams {offset : Int} (h : a.placeParams depth offset ds = .ok places)
    (hds : ∀ d ∈ ds, a.declBytes d = .ok Word.size) :
    List.Forall₂ (fun (d : Decl) g => (d.id, .relative g.offset depth g.size) ∈ places) ds
      ((List.range ds.length).map fun k : Nat => Region.word (offset + Word.size * (k + 1))) := by
  induction ds generalizing offset places with
  | nil => exact .nil
  | cons d ds ih =>
    obtain ⟨hd, hds⟩ := forall_mem_cons.mp hds
    obtain ⟨b, hb, h⟩ := bind_eq_ok.mp h
    obtain rfl : Word.size = b := Except.ok.inj (hd.symm.trans hb)
    obtain ⟨places', hrest, h⟩ := bind_eq_ok.mp h
    cases h
    have hnext : ∀ k : Nat, offset + Word.size * ((k + 1 : Nat) + 1) =
        offset + Word.size + Word.size * (k + 1) := fun k => by
      unfold Word.size
      omega
    rw [length_cons, range_succ_eq_map, map_cons, map_map]
    refine .cons (by simp [Region.word]) ?_
    simp only [Function.comp_def, hnext]
    exact (ih hrest hds).imp fun _ _ hmem => mem_cons_of_mem _ hmem

end

section
variable {p : Program} {a : Analysis} {pl : Planner} {φ : List Decl} {d : Decl} {f : Frame}

theorem Planner.Records.locals (h : pl.Records p a φ d f) (hp : p.Analyzed a) :
    ∃ gs, List.Forall₂ (pl.layout.Puts f.depth) d.locals gs ∧ Region.Tiles 0 (-f.locals) gs ∧
      ∀ g ∈ gs, Word.size ∣ g.size := by
  obtain ⟨s, s', places, hframes, -, -, hplaces⟩ := h.frame
  obtain ⟨localPlaces, paramPlaces, hlocals, -, rfl⟩ := hframes.places
  obtain ⟨gs, hputs, htiles, hsizes⟩ := Analysis.tiles_placeLocals hlocals fun v hv b hb =>
    hp.dvd_declBytes (hp.inCode_of_locals h.code hv).has hb
  refine ⟨gs, hputs.imp fun v g hmem => ?_, by simpa using htiles, hsizes⟩
  rw [Layout.Puts, hframes.depth]
  exact hplaces _ (mem_append_left _ hmem)

theorem Planner.Records.params (h : pl.Records p a φ d f) (hp : p.Analyzed a) :
    List.Forall₂ (pl.layout.Puts f.depth) d.params (Region.params d.params.length) := by
  obtain ⟨s, s', places, hframes, -, -, hplaces⟩ := h.frame
  obtain ⟨localPlaces, paramPlaces, -, hparams, rfl⟩ := hframes.places
  have hwords := Analysis.words_placeParams hparams fun v hv =>
    hp.declBytes_parameter (h.code.param hv).has (hp.formed.role_of_params h.code.has hv)
  simp only [Int.zero_add] at hwords
  refine hwords.imp fun v g hmem => ?_
  rw [Layout.Puts, hframes.depth]
  exact hplaces _ (mem_append_right _ hmem)

end

end MmixCompiler
