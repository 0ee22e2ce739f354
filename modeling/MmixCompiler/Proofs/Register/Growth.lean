import MmixCompiler.Proofs.Register.SpillSequence
import MmixCompiler.Proofs.Register.Strand

/-! Code as it grows when temporaries move to the frame. Each instruction of the original becomes one
strand or two, and moving a temporary moves it in every strand. -/

namespace MmixCompiler

open Mmix Fresh Footprint List

variable {x : Strand}

/-- The footprint of an instruction, the frame pointer apart. -/
def Mmix.Instr.footprint (fp : Temp) (i : Instr) : Footprint := ⟨i.uses.filter (· ≠ fp), i.defs⟩

/-- Operations one after the other. -/
def Straight (is : List Instr) : Prop := ∀ i ∈ is, ∃ o, i = .oper o ∧ o.jumps = []

section
variable {fp t new a : Temp} {distance : Int} {s s' : Supply} {o : Oper} {block : List Instr}

theorem straight_fetch : Straight ((MmixCompiler.fetch new a fp distance).map Op.instr) := fun i hi => by
  obtain ⟨op, hop, rfl⟩ := mem_map.mp hi
  exact ⟨_, rfl, jumps_access (.inl hop)⟩

theorem straight_keep : Straight ((MmixCompiler.keep new a fp distance).map Op.instr) := fun i hi => by
  obtain ⟨op, hop, rfl⟩ := mem_map.mp hi
  exact ⟨_, rfl, jumps_access (.inr hop)⟩

theorem footprint_slotOps (ha : a ≠ fp) :
    ((slotOps a fp distance).map Op.instr).map (Instr.footprint fp) = Footprint.slot (distance < 0) a := by
  by_cases hd : distance < 0 <;>
    simp [slotOps, loadConst, hd, Footprint.slot, Op.instr, Instr.footprint, Instr.uses, Instr.defs, Op.uses, Op.defs,
      Op.args, Op.Arg.ofValue, Reg.temp?, ha]

theorem footprint_fetch (ha : a ≠ fp) : ((MmixCompiler.fetch new a fp distance).map Op.instr).map (Instr.footprint fp) =
      Footprint.fetch (distance < 0) new a := by
  rw [MmixCompiler.fetch, map_append, map_append, footprint_slotOps ha]
  simp [Footprint.fetch, Op.instr, Instr.footprint, Instr.uses, Instr.defs, Op.uses, Op.defs, Op.args,
    Op.Arg.ofValue, Reg.temp?, ha]

theorem footprint_keep (ha : a ≠ fp) (hnew : new ≠ fp) :
    ((MmixCompiler.keep new a fp distance).map Op.instr).map (Instr.footprint fp) =
      Footprint.keep (distance < 0) new a := by
  rw [MmixCompiler.keep, map_append, map_append, footprint_slotOps ha]
  simp [Footprint.keep, Op.instr, Instr.footprint, Instr.uses, Instr.defs, Op.uses, Op.defs, Op.args,
    Op.Arg.ofValue, Reg.temp?, ha, hnew]

theorem filter_rename (ht : t ≠ fp) (hnew : new ≠ fp) (ts : List Temp) :
    (rename t new ts).filter (· ≠ fp) = (ts.filter (· ≠ fp)).map fun u => if u = t then new else u := by
  rw [rename, filter_map]
  congr 1
  refine filter_congr fun u _ => ?_
  by_cases hu : u = t <;> simp [hu, ht, hnew]

theorem contains_filter (ht : t ≠ fp) (ts : List Temp) : (ts.filter (· ≠ fp)).contains t = decide (t ∈ ts) := by
  rw [Bool.eq_iff_iff]
  simp [ht]

theorem straight_fetched {n : Nat} : Straight (fetched t fp distance n o) := by
  unfold fetched
  split
  · exact straight_fetch
  · simp [Straight]

theorem straight_kept {n : Nat} : Straight (kept t fp distance n o) := by
  unfold kept
  split
  · exact straight_keep
  · simp [Straight]

section
variable {n : Nat} (hfp : fp < n)
include hfp

theorem add_ne_fp (k : Nat) : n + k ≠ fp := Nat.ne_of_gt (Nat.lt_of_lt_of_le hfp (Nat.le_add_right n k))

theorem spill_footprint (ht : t ≠ fp) : Footprint.spill (distance < 0) t n ((Instr.oper o).footprint fp) =
    ((fetched t fp distance n o ++ .oper (o.rename t n) :: kept t fp distance n o).map (Instr.footprint fp),
      n + taken t o) := by
  have hn : n ≠ fp := Nat.ne_of_gt hfp
  have hrename : (Instr.oper (o.rename t n)).footprint fp = ((Instr.oper o).footprint fp).rename t n := by
    simp only [Instr.footprint, Instr.uses, Instr.defs, Oper.rename, Footprint.rename, Footprint.map]
    rw [filter_rename ht hn]
    rfl
  have huses : ((Instr.oper o).footprint fp).uses.contains t = decide (t ∈ o.uses) := contains_filter ht o.uses
  have hdefs : ((Instr.oper o).footprint fp).defs.contains t = decide (t ∈ o.defs) := by
    rw [Bool.eq_iff_iff]
    simp [Instr.footprint, Instr.defs]
  unfold Footprint.spill fetched kept taken
  rw [huses, hdefs, map_append, map_cons, hrename]
  by_cases hu : t ∈ o.uses <;> by_cases hw : t ∈ o.defs
  · simp [hu, hw, footprint_fetch (add_ne_fp hfp 1), footprint_keep (add_ne_fp hfp 2) hn]
  · simp [hu, hw, footprint_fetch (add_ne_fp hfp 1)]
  · simp [hu, hw, footprint_keep (add_ne_fp hfp 1) hn]
  · rw [← hrename, Oper.rename, rename_of_notMem hu, rename_of_notMem hw]
    simp [hu, hw]

theorem spill_reads (distance : Int) (ht : t ≠ fp) : Footprint.spill (distance < 0) t n ⟨o.uses.filter (· ≠ fp), []⟩ =
    ((fetched t fp distance n o).map (Instr.footprint fp) ++ [⟨(rename t n o.uses).filter (· ≠ fp), []⟩],
      if t ∈ o.uses then n + 2 else n) := by
  have hn : n ≠ fp := Nat.ne_of_gt hfp
  unfold Footprint.spill fetched
  rw [contains_filter ht]
  by_cases hu : t ∈ o.uses
  · rw [if_pos hu, if_pos hu, footprint_fetch (add_ne_fp hfp 1), filter_rename ht hn]
    simp [hu, Footprint.rename, Footprint.map]
  · simp [hu, rename_of_notMem hu]

theorem spill_writes (distance : Int) (hor : t ∉ o.uses ∨ t ∉ o.defs) :
    Footprint.spill (distance < 0) t (if t ∈ o.uses then n + 2 else n) ⟨[], o.defs⟩ =
      (⟨[], rename t n o.defs⟩ :: (kept t fp distance n o).map (Instr.footprint fp), n + taken t o) := by
  have hn : n ≠ fp := Nat.ne_of_gt hfp
  have hcontains : o.defs.contains t = decide (t ∈ o.defs) := by rw [Bool.eq_iff_iff]; simp
  unfold Footprint.spill kept taken
  rw [hcontains]
  by_cases hw : t ∈ o.defs
  · have hu : t ∉ o.uses := hor.resolve_right (not_not.mpr hw)
    simp [hu, hw, footprint_keep (add_ne_fp hfp 1) hn, Footprint.rename, Footprint.map, rename]
  · by_cases hu : t ∈ o.uses <;> simp [hu, hw, rename_of_notMem hw]

end
end

theorem gives_mapM_append {α β : Type} {f : α → Fresh β} {xs ys : List α} {zs : List β} {s s' : Supply} :
    Gives ((xs ++ ys).mapM f) s zs s' ↔ ∃ as s₁ bs, Gives (xs.mapM f) s as s₁ ∧
      Gives (ys.mapM f) s₁ bs s' ∧ zs = as ++ bs := by
  induction xs generalizing s zs with
  | nil => simp
  | cons x xs ih =>
    simp only [cons_append, gives_mapM_cons, ih]
    constructor
    · rintro ⟨y, s₁, ys', hy, ⟨as, s₂, bs, has, hbs, rfl⟩, rfl⟩
      exact ⟨_, s₂, bs, ⟨y, s₁, as, hy, has, rfl⟩, hbs, rfl⟩
    · rintro ⟨_, s₂, bs, ⟨y, s₁, as, hy, has, rfl⟩, hbs, rfl⟩
      exact ⟨y, s₁, as ++ bs, hy, ⟨as, s₂, bs, has, hbs, rfl⟩, rfl⟩

section
variable {fp t : Temp} {distance : Int} {s s' : Supply} {is : List Instr} {blocks : List (List Instr)}

theorem Straight.append {is' : List Instr} (h : Straight is) (h' : Straight is') :
    Straight (is ++ is') := fun i hi => (mem_append.mp hi).elim (h i) (h' i)

theorem footprint_spill (hfp : fp < s.temps) (ht : t ≠ fp)
    (hgives : Gives (is.mapM (Instr.spill t fp distance)) s blocks s') :
    spillAll (distance < 0) t s.temps (is.map (Instr.footprint fp)) =
      (blocks.flatten.map (Instr.footprint fp), s'.temps) := by
  induction is generalizing s blocks with
  | nil =>
    obtain ⟨rfl, rfl⟩ := gives_mapM_nil.mp hgives
    rfl
  | cons i is ih =>
    obtain ⟨block, s₁, blocks, hblock, hblocks, rfl⟩ := gives_mapM_cons.mp hgives
    have hfirst : (i.footprint fp).spill (distance < 0) t s.temps = (block.map (Instr.footprint fp), s₁.temps) := by
      cases i with
      | label l =>
        obtain ⟨rfl, rfl⟩ := gives_pure.mp hblock
        rfl
      | oper o =>
        obtain ⟨rfl, rfl⟩ := gives_spill.mp hblock
        rw [spill_footprint hfp ht]
    have hle : s.temps ≤ s₁.temps := (block_of_spill hblock).1
    rw [map_cons, spillAll, hfirst, ih (Nat.lt_of_lt_of_le hfp hle) hblocks, flatten_cons, map_append]

theorem Straight.spill (h : Straight is) (hgives : Gives (is.mapM (Instr.spill t fp distance)) s blocks s') :
    Straight blocks.flatten := by
  induction is generalizing s blocks with
  | nil =>
    obtain ⟨rfl, rfl⟩ := gives_mapM_nil.mp hgives
    exact h
  | cons i is ih =>
    obtain ⟨block, s₁, blocks, hblock, hblocks, rfl⟩ := gives_mapM_cons.mp hgives
    obtain ⟨o, rfl, hjumps⟩ := h i mem_cons_self
    obtain ⟨rfl, -⟩ := gives_spill.mp hblock
    rw [flatten_cons]
    refine Straight.append (straight_fetched.append fun i hi => ?_)
      (ih (fun i hi => h i (mem_cons_of_mem _ hi)) hblocks)
    rcases mem_cons.mp hi with rfl | hi
    · exact ⟨_, rfl, hjumps⟩
    · exact straight_kept i hi

end

/-- Code that has grown out of the original, and its strands. An instruction has become a straight
part, or straight parts around an operation that reads at the end of one strand and writes at the
beginning of another. -/
inductive Grown (fp : Temp) : List Instr → List Strand → Prop where
  | nil : Grown fp [] []
  | label {code : List Instr} {xs : List Strand} (l : Label) (h : Grown fp code xs) :
      Grown fp (.label l :: code) xs
  | joint {code body : List Instr} {xs : List Strand} {x : Strand} (hbody : Straight body)
      (hx : x.track = body.map (Instr.footprint fp)) (h : Grown fp code xs) :
      Grown fp (body ++ code) (x :: xs)
  | apart {code before after : List Instr} {xs : List Strand} {x y : Strand} {o : Oper}
      (hbefore : Straight before) (hafter : Straight after)
      (hjumps : o.jumps ≠ [] → o.defs = [] ∧ after = [])
      (hapart : ∀ u ∈ o.uses, u ∉ o.defs)
      (hx : x.track = before.map (Instr.footprint fp) ++ [⟨o.uses.filter (· ≠ fp), []⟩])
      (hy : y.track = ⟨[], o.defs⟩ :: after.map (Instr.footprint fp)) (h : Grown fp code xs) :
      Grown fp (before ++ .oper o :: after ++ code) (x :: y :: xs)

theorem Strand.Numbered.lt_limit {base limit t : Nat} (h : x.Numbered base limit) {s : Footprint}
    (hs : s ∈ x.track) (ht : t ∈ s.temps) : t < limit := by
  obtain ⟨v, hv, rfl, -⟩ := h.exists_number hs ht
  exact h.limit v hv

theorem rename_apart {t : Temp} {n : Nat} {uses defs : List Temp} (h : ∀ u ∈ uses, u ∉ defs)
    (huses : n ∉ uses) (hdefs : n ∉ defs) : ∀ u ∈ rename t n uses, u ∉ rename t n defs := by
  intro u hu hu'
  rcases mem_rename hu with ⟨rfl, hread⟩ | ⟨hread, -⟩ <;> rcases mem_rename hu' with ⟨heq, hwritten⟩ | ⟨hwritten, -⟩
  · exact h t hread hwritten
  · exact hdefs hwritten
  · exact huses (heq ▸ hread)
  · exact h u hread hwritten

section
variable {fp t base limit : Nat} {distance : Int} {code : List Instr} {s s' : Supply}
  {xs : List Strand} {blocks : List (List Instr)}

/-- Moving a temporary that is original or chosen makes the strands grow. -/
theorem Grown.spill (h : Grown fp code xs) (hfits : ∀ x ∈ xs, x.Fits base limit)
    (hbase : base ≤ limit) (hlimit : limit ≤ s.temps) (hfp : fp < base) (hd : 0 ≤ distance) (ht : t ≠ fp)
    (hlt : t < s.temps)
    (hallowed : ∀ x ∈ xs, (∃ f ∈ x.track, t ∈ f.temps) → t < base ∨ t ∈ x.chosen.map x.name)
    (hgives : Gives (code.mapM (Instr.spill t fp distance)) s blocks s') :
    ∃ xs', Grown fp blocks.flatten xs' ∧ MovesAll (Strand.Fits base) false t s.temps s'.temps xs xs' := by
  have hneg : decide (distance < 0) = false := decide_eq_false (Int.not_lt.mpr hd)
  induction h generalizing s blocks with
  | nil =>
    obtain ⟨rfl, rfl⟩ := gives_mapM_nil.mp hgives
    exact ⟨[], .nil, .nil _⟩
  | label l h ih =>
    obtain ⟨block, s₁, blocks, hblock, hblocks, rfl⟩ := gives_mapM_cons.mp hgives
    obtain ⟨rfl, rfl⟩ := gives_pure.mp hblock
    obtain ⟨xs', hgrown, hmoves⟩ := ih hfits hlimit hlt hallowed hblocks
    exact ⟨xs', .label l hgrown, hmoves⟩
  | @joint code body xs x hbody hx h ih =>
    have hfp' : fp < s.temps := Nat.lt_of_lt_of_le hfp (Nat.le_trans hbase hlimit)
    obtain ⟨bs, s₁, cs, hbs, hcs, rfl⟩ := gives_mapM_append.mp hgives
    have hstraight := hbody.spill hbs
    have htrack := footprint_spill hfp' ht hbs
    rw [hneg] at htrack
    obtain ⟨x', n', hx'⟩ := (hfits x mem_cons_self).exists_moves hbase hlimit (hallowed x mem_cons_self)
    obtain ⟨htrack', rfl⟩ : bs.flatten.map (Instr.footprint fp) = x'.track ∧ s₁.temps = n' := by
      have := hx'.track
      rw [hx, htrack] at this
      exact Prod.mk.inj this
    have hle : s.temps ≤ s₁.temps := (blocks_of_mapM hbs).1
    obtain ⟨xs', hgrown, hmoves⟩ := ih (fun y hy => hfits y (mem_cons_of_mem _ hy))
      (Nat.le_trans hlimit hle) (Nat.lt_of_lt_of_le hlt hle)
      (fun y hy => hallowed y (mem_cons_of_mem _ hy)) hcs
    exact ⟨x' :: xs', by rw [flatten_append]; exact .joint hstraight htrack'.symm hgrown,
      .cons hx' hmoves⟩
  | @apart code before after xs x y o hbefore hafter hjumps hapart hx hy h ih =>
    have hfp' : fp < s.temps := Nat.lt_of_lt_of_le hfp (Nat.le_trans hbase hlimit)
    obtain ⟨_, s₃, ds, hdone, hds, rfl⟩ := gives_mapM_append.mp hgives
    obtain ⟨bs, s₁, _, hbs, hrest, rfl⟩ := gives_mapM_append.mp hdone
    obtain ⟨block, s₂, as, hblock, has, rfl⟩ := gives_mapM_cons.mp hrest
    have hle₁ : s.temps ≤ s₁.temps := (blocks_of_mapM hbs).1
    have hle₂ : s₁.temps ≤ s₂.temps := (block_of_spill hblock).1
    have hle₃ : s₂.temps ≤ s₃.temps := (blocks_of_mapM has).1
    have hfp₁ : fp < s₁.temps := by omega
    have hfp₂ : fp < s₂.temps := by omega
    have htrack := footprint_spill hfp' ht hbs
    have htrack' := footprint_spill hfp₂ ht has
    have hstraight := hafter.spill has
    replace hbs := hbefore.spill hbs
    obtain ⟨rfl, hsupply⟩ := gives_spill.mp hblock
    have htemps : s₂.temps = s₁.temps + taken t o := congrArg Supply.temps hsupply
    have hread := spill_reads (o := o) hfp₁ distance ht
    have hwrite := spill_writes hfp₁ distance (not_and_or.mp fun hboth => hapart t hboth.1 hboth.2)
    rw [hneg] at htrack htrack' hread hwrite
    have hreads : spillAll false t s.temps x.track =
        ((bs.flatten ++ fetched t fp distance s₁.temps o).map (Instr.footprint fp) ++
          [⟨(rename t s₁.temps o.uses).filter (· ≠ fp), []⟩],
          if t ∈ o.uses then s₁.temps + 2 else s₁.temps) := by
      rw [hx, spillAll_append, htrack, spillAll, hread, spillAll]
      simp only [append_nil, map_append, append_assoc]
    have hwrites : spillAll false t (if t ∈ o.uses then s₁.temps + 2 else s₁.temps) y.track =
        (⟨[], rename t s₁.temps o.defs⟩ ::
          (kept t fp distance s₁.temps o ++ as.flatten).map (Instr.footprint fp), s₃.temps) := by
      rw [hy, spillAll, hwrite, ← htemps, htrack']
      simp only [cons_append, map_append]
    have hfitsx := hfits x mem_cons_self
    have hfitsy := hfits y (mem_cons_of_mem _ mem_cons_self)
    obtain ⟨x', n, hx'⟩ := hfitsx.exists_moves hbase hlimit (hallowed x mem_cons_self)
    obtain ⟨hxtrack, rfl⟩ := Prod.mk.inj (hx'.track.symm.trans hreads)
    obtain ⟨y', n', hy'⟩ := hfitsy.exists_moves hbase
      (show limit ≤ if t ∈ o.uses then s₁.temps + 2 else s₁.temps by split <;> omega)
      (hallowed y (mem_cons_of_mem _ mem_cons_self))
    obtain ⟨hytrack, rfl⟩ := Prod.mk.inj (hy'.track.symm.trans hwrites)
    obtain ⟨xs', hgrown, hmoves⟩ := ih
      (fun z hz => hfits z (mem_cons_of_mem _ (mem_cons_of_mem _ hz))) (by omega) (by omega)
      (fun z hz => hallowed z (mem_cons_of_mem _ (mem_cons_of_mem _ hz))) hds
    have hnuses : s₁.temps ∉ o.uses := fun hmem => by
      rcases eq_or_ne s₁.temps fp with heq | hne
      · omega
      · have hlt : s₁.temps < limit := hfitsx.lt_limit (hx ▸ mem_append_right _ mem_cons_self)
          (mem_append_left _ (mem_filter.mpr ⟨hmem, decide_eq_true hne⟩))
        omega
    have hndefs : s₁.temps ∉ o.defs := fun hmem => by
      have hlt : s₁.temps < limit := hfitsy.lt_limit (hy ▸ mem_cons_self) (mem_append_right _ hmem)
      omega
    refine ⟨x' :: y' :: xs', ?_, .cons hx' (.cons hy' hmoves)⟩
    have hjumps' : o.jumps ≠ [] → rename t s₁.temps o.defs = [] ∧
        kept t fp distance s₁.temps o ++ as.flatten = [] := fun h => by
      obtain ⟨hdefs, rfl⟩ := hjumps h
      obtain ⟨rfl, -⟩ := gives_mapM_nil.mp has
      simp [rename, kept, hdefs]
    have hgrown := Grown.apart (o := o.rename t s₁.temps) (hbs.append straight_fetched)
      (straight_kept.append hstraight) hjumps'
      (rename_apart hapart hnuses hndefs) hxtrack hytrack hgrown
    simpa only [flatten_append, flatten_cons, append_assoc, cons_append] using hgrown

/-- Mentioned by one of several strands, or the frame pointer. -/
def Foreign (fp : Temp) (xs : List Strand) (t : Temp) : Prop :=
  t = fp ∨ ∃ x ∈ xs, ∃ f ∈ x.track, t ∈ f.temps

theorem Foreign.mono {xs ys : List Strand} (h : Foreign fp xs t) (hsub : xs ⊆ ys) : Foreign fp ys t :=
  h.imp_right fun hmention => hmention.imp fun _ hx => ⟨hsub hx.1, hx.2⟩

theorem foreign_of_mem {f : Footprint} (hf : f ∈ x.track) (ht : t ≠ fp → t ∈ f.temps) : Foreign fp [x] t :=
  or_iff_not_imp_left.mpr fun hne => ⟨x, mem_singleton_self x, f, hf, ht hne⟩

/-- All that instructions mention is foreign. -/
def AllForeign (fp : Temp) (xs : List Strand) (is : List Instr) : Prop := ∀ i ∈ is, ∀ t ∈ i.temps, Foreign fp xs t

namespace AllForeign

variable {ys : List Strand} {is js : List Instr}

theorem of_track (h : is.map (Instr.footprint fp) ⊆ x.track) : AllForeign fp [x] is := fun i hi t ht => by
  refine foreign_of_mem (h (mem_map_of_mem hi)) fun hne => ?_
  rcases mem_append.mp ht with ht | ht
  · exact mem_append_left _ (mem_filter.mpr ⟨ht, decide_eq_true hne⟩)
  · exact mem_append_right _ ht

theorem mono (h : AllForeign fp xs is) (hsub : xs ⊆ ys) : AllForeign fp ys is := fun i hi t ht =>
  (h i hi t ht).mono hsub

theorem append (h : AllForeign fp xs is) (h' : AllForeign fp xs js) : AllForeign fp xs (is ++ js) := fun i hi =>
  (mem_append.mp hi).elim (h i) (h' i)

theorem label (l : Label) : AllForeign fp xs [.label l] := by simp [AllForeign, Instr.temps, Instr.uses, Instr.defs]

end AllForeign

section
variable {before after : List Instr} {y : Strand} {o : Oper}

theorem foreign_reads (hx : x.track = before.map (Instr.footprint fp) ++ [⟨o.uses.filter (· ≠ fp), []⟩]) :
    ∀ t ∈ o.uses, Foreign fp [x] t := fun _ ht =>
  foreign_of_mem (hx ▸ mem_append_right _ mem_cons_self) fun hne =>
    mem_append_left _ (mem_filter.mpr ⟨ht, decide_eq_true hne⟩)

theorem foreign_writes (hy : y.track = ⟨[], o.defs⟩ :: after.map (Instr.footprint fp)) :
    ∀ t ∈ o.defs, Foreign fp [y] t := fun _ ht =>
  foreign_of_mem (hy ▸ mem_cons_self) fun _ => mem_append_right _ ht

end

/-- A strand in code: its instructions, with other strands before and behind. What the first reads and
the last writes may belong to other strands. -/
structure Hosts (fp : Temp) (x : Strand) (others : List Strand) (pre mid post : List Instr) : Prop where
  length : mid.length = x.track.length
  oper : ∀ k s, x.track[k]? = some s → ∃ o, mid[k]? = some (.oper o) ∧
    (k + 1 < x.track.length → o.jumps = [] ∧ o.defs = s.defs) ∧
    (0 < k → o.uses.filter (· ≠ fp) = s.uses) ∧
    (o.uses.filter (· ≠ fp) = s.uses ∨ s.uses = [] ∧ ∀ t ∈ o.uses, Foreign fp others t) ∧
    (o.defs = s.defs ∨ s.defs = [] ∧ ∀ t ∈ o.defs, Foreign fp others t)
  pre : ∀ i ∈ pre, ∀ t ∈ i.temps, Foreign fp others t
  post : ∀ i ∈ post, ∀ t ∈ i.temps, Foreign fp others t

theorem Grown.foreign (h : Grown fp code xs) : AllForeign fp xs code := by
  induction h with
  | nil => simp [AllForeign]
  | label l h ih => exact (AllForeign.label l).append ih
  | @joint code body xs x hbody hx h ih =>
    exact ((AllForeign.of_track (x := x) (by simp [hx])).mono (by simp)).append (ih.mono (subset_cons_self _ _))
  | @apart code before after xs x y o hbefore hafter hjumps hapart hx hy h ih =>
    have hfx : AllForeign fp [x] before := .of_track (hx ▸ subset_append_left _ _)
    have hfy : AllForeign fp [y] after := .of_track (hy ▸ subset_cons_self _ _)
    have ho : AllForeign fp (x :: y :: xs) [.oper o] := fun i hi t ht => by
      obtain rfl := mem_singleton.mp hi
      rcases mem_append.mp ht with ht | ht
      · exact (foreign_reads hx t ht).mono (by simp)
      · exact (foreign_writes hy t ht).mono (by simp)
    exact ((hfx.mono (by simp)).append (ho.append (hfy.mono (by simp)))).append
      (ih.mono fun z hz => mem_cons_of_mem _ (mem_cons_of_mem _ hz))

theorem Straight.oper {is : List Instr} (h : Straight is) {k : Nat} {s : Footprint}
    (hs : (is.map (Instr.footprint fp))[k]? = some s) :
    ∃ o, is[k]? = some (.oper o) ∧ o.jumps = [] ∧ (Instr.oper o).footprint fp = s := by
  rw [getElem?_map, Option.map_eq_some_iff] at hs
  obtain ⟨i, hi, rfl⟩ := hs
  obtain ⟨o, rfl, hjumps⟩ := h i (mem_of_getElem? hi)
  exact ⟨o, hi, hjumps, rfl⟩

theorem hosts_joint {body : List Instr} (hbody : Straight body)
    (hx : x.track = body.map (Instr.footprint fp)) (hcode : AllForeign fp xs code) :
    Hosts fp x xs [] body code := by
  refine ⟨by simp [hx], fun k s hs => ?_, by simp, hcode⟩
  obtain ⟨o, hi, hjumps, rfl⟩ := hbody.oper (hx ▸ hs)
  exact ⟨o, hi, fun _ => ⟨hjumps, rfl⟩, fun _ => rfl, .inl rfl, .inl rfl⟩

theorem hosts_reads {before rest : List Instr} {o : Oper} (hbefore : Straight before)
    (hx : x.track = before.map (Instr.footprint fp) ++ [⟨o.uses.filter (· ≠ fp), []⟩])
    (hdefs : ∀ t ∈ o.defs, Foreign fp xs t) (hrest : AllForeign fp xs rest) :
    Hosts fp x xs [] (before ++ [.oper o]) rest := by
  refine ⟨by simp [hx], fun k s hs => ?_, by simp, hrest⟩
  have hlen : x.track.length = before.length + 1 := by simp [hx]
  rw [hx] at hs
  rcases Nat.lt_or_ge k before.length with hk | hk
  · rw [getElem?_append_left (by simpa using hk)] at hs
    obtain ⟨o', hi, hjumps, rfl⟩ := hbefore.oper hs
    refine ⟨o', by rw [getElem?_append_left hk]; exact hi, ?_⟩
    exact ⟨fun _ => ⟨hjumps, rfl⟩, fun _ => rfl, .inl rfl, .inl rfl⟩
  · obtain rfl : k = before.length := by
      have := (List.getElem?_eq_some_iff.mp hs).1
      simp at this
      omega
    obtain rfl : ⟨o.uses.filter (· ≠ fp), []⟩ = s := by simpa using hs
    refine ⟨o, by simp, fun h => absurd h (by omega), fun _ => rfl, .inl rfl, .inr ⟨rfl, hdefs⟩⟩

theorem hosts_writes {before after rest : List Instr} {y : Strand} {o : Oper} (hafter : Straight after)
    (hjumps : o.jumps ≠ [] → after = [])
    (hy : y.track = ⟨[], o.defs⟩ :: after.map (Instr.footprint fp))
    (huses : ∀ t ∈ o.uses, Foreign fp xs t) (hbefore : AllForeign fp xs before)
    (hrest : AllForeign fp xs rest) :
    Hosts fp y xs before (.oper o :: after) rest := by
  refine ⟨by simp [hy], fun k s hs => ?_, hbefore, hrest⟩
  rw [hy] at hs
  cases k with
  | zero =>
    obtain rfl : ⟨[], o.defs⟩ = s := by simpa using hs
    refine ⟨o, rfl, fun hlt => ⟨not_not.mp fun h => ?_, rfl⟩, fun h => absurd h (Nat.lt_irrefl 0),
      .inr ⟨rfl, huses⟩, .inl rfl⟩
    simp [hy, hjumps h] at hlt
  | succ k =>
    obtain ⟨o', hi, hjumps, rfl⟩ := hafter.oper hs
    exact ⟨o', hi, fun _ => ⟨hjumps, rfl⟩, fun _ => rfl, .inl rfl, .inl rfl⟩

theorem Hosts.extend {ys zs : List Strand} {front pre mid post : List Instr}
    (h : Hosts fp x ys pre mid post) (hfront : AllForeign fp zs front) :
    Hosts fp x (zs ++ ys) (front ++ pre) mid post := by
  have hmono : ∀ {t}, Foreign fp ys t → Foreign fp (zs ++ ys) t := fun h =>
    h.mono (subset_append_right zs ys)
  refine ⟨h.length, fun k s hs => ?_, fun i hi t ht => ?_, fun i hi t ht => hmono (h.post i hi t ht)⟩
  · obtain ⟨o, ho, hjumps, huses, huses', hdefs⟩ := h.oper k s hs
    exact ⟨o, ho, hjumps, huses, huses'.imp_right fun hu => ⟨hu.1, fun t ht => hmono (hu.2 t ht)⟩,
      hdefs.imp_right fun hw => ⟨hw.1, fun t ht => hmono (hw.2 t ht)⟩⟩
  · rcases mem_append.mp hi with hi | hi
    · exact (hfront i hi t ht).mono (subset_append_left zs ys)
    · exact hmono (h.pre i hi t ht)

theorem Grown.exists_hosts (h : Grown fp code xs) {xs₁ xs₂ : List Strand} (hxs : xs = xs₁ ++ x :: xs₂) :
    ∃ pre mid post, code = pre ++ mid ++ post ∧ Hosts fp x (xs₁ ++ xs₂) pre mid post := by
  induction h generalizing xs₁ with
  | nil => simp at hxs
  | label l h ih =>
    obtain ⟨pre, mid, post, rfl, hhosts⟩ := ih hxs
    exact ⟨.label l :: pre, mid, post, rfl, hhosts.extend (show AllForeign fp [] _ from .label l)⟩
  | @joint code body xs z hbody hz h ih =>
    cases xs₁ with
    | nil =>
      obtain ⟨rfl, rfl⟩ := List.cons.inj hxs
      exact ⟨[], body, code, rfl, hosts_joint hbody hz h.foreign⟩
    | cons z' xs₁ =>
      rw [cons_append, List.cons.injEq] at hxs
      obtain ⟨rfl, hxs⟩ := hxs
      obtain ⟨pre, mid, post, rfl, hhosts⟩ := ih hxs
      exact ⟨body ++ pre, mid, post, by simp, hhosts.extend (.of_track (x := z) (by simp [hz]))⟩
  | @apart code before after xs z w o hbefore hafter hjumps hapart hz hw h ih =>
    rcases xs₁ with _ | ⟨z', _ | ⟨w', xs₁⟩⟩
    · obtain ⟨rfl, rfl⟩ := List.cons.inj hxs
      have hfw : AllForeign fp [w] after := .of_track (hw ▸ subset_cons_self _ _)
      refine ⟨[], before ++ [.oper o], after ++ code, by simp, hosts_reads hbefore hz ?_ ?_⟩
      · exact fun t ht => (foreign_writes hw t ht).mono (by simp)
      · exact (hfw.mono (by simp)).append (h.foreign.mono (by simp))
    · simp only [cons_append, nil_append, List.cons.injEq] at hxs
      obtain ⟨rfl, rfl, rfl⟩ := hxs
      have hfz : AllForeign fp [z] before := .of_track (hz ▸ subset_append_left _ _)
      refine ⟨before, .oper o :: after, code, by simp, hosts_writes hafter (fun h => (hjumps h).2) hw ?_
        (hfz.mono (by simp)) (h.foreign.mono (by simp))⟩
      exact fun t ht => (foreign_reads hz t ht).mono (by simp)
    · simp only [cons_append, List.cons.injEq] at hxs
      obtain ⟨rfl, rfl, hxs⟩ := hxs
      obtain ⟨pre, mid, post, rfl, hhosts⟩ := ih hxs
      have hfront : AllForeign fp [z, w] (before ++ .oper o :: after) := by
        simpa using (Grown.apart hbefore hafter hjumps hapart hz hw .nil).foreign
      exact ⟨before ++ .oper o :: after ++ pre, mid, post, by simp, hhosts.extend hfront⟩

theorem Foreign.not_own {others : List Strand} (h : Foreign fp others t)
    (hfits : x.Fits base limit) (hothers : ∀ y ∈ others, y.Fits base limit) (hfp : fp < base)
    (hdisjoint : ∀ y ∈ others, ∀ t, y.Own t → ¬ x.Own t) : ¬ x.Own t := by
  intro hown
  have hle := (hfits.le_of_own hown).1
  rcases h with rfl | ⟨y, hy, f, hf, ht⟩
  · omega
  · rcases (hothers y hy).lt_or_own hf ht with hlt | hown'
    · omega
    · exact hdisjoint y hy t hown' hown

theorem Hosts.segment {others : List Strand} {pre mid post : List Instr}
    (h : Hosts fp x others pre mid post) (hfits : x.Fits base limit) (hfp : fp < base)
    (hforeign : ∀ t, Foreign fp others t → ¬ x.Own t) :
    Segment (pre ++ mid ++ post) fp pre.length x.track x.Own := by
  refine hfits.segment hfp (fun k s hs => ?_) fun index i hi hout t hown => ?_
  · obtain ⟨o, ho, hstraight, huses, huses', hdefs⟩ := h.oper k s hs
    have hk : k < mid.length := (List.getElem?_eq_some_iff.mp ho).1
    refine ⟨o, ?_, fun hlt => (hstraight hlt).1, fun t hown => ?_, fun t hown => ?_,
      fun hlt => (hstraight hlt).2, huses⟩
    · rw [append_assoc, getElem?_append_right (by omega), Nat.add_sub_cancel_left,
        getElem?_append_left hk]
      exact ho
    · have hne : t ≠ fp := fun heq => hforeign t (.inl heq) hown
      rcases huses' with heq | ⟨heq, hu⟩
      · rw [← heq, mem_filter]
        simp [hne]
      · rw [heq]
        exact ⟨fun ht => absurd hown (hforeign t (hu t ht)), fun ht => absurd ht not_mem_nil⟩
    · rcases hdefs with heq | ⟨heq, hw⟩
      · rw [heq]
      · rw [heq]
        exact ⟨fun ht => absurd hown (hforeign t (hw t ht)), fun ht => absurd ht not_mem_nil⟩
  · have hmem : i ∈ pre ∨ i ∈ post := by
      rw [append_assoc] at hi
      rcases hout with hlt | hge
      · rw [getElem?_append_left hlt] at hi
        exact .inl (mem_of_getElem? hi)
      · have := h.length
        rw [getElem?_append_right (by omega), getElem?_append_right (by omega)] at hi
        exact .inr (mem_of_getElem? hi)
    have hnot : t ∉ i.temps := fun ht =>
      hforeign t (hmem.elim (fun hi => h.pre i hi t ht) fun hi => h.post i hi t ht) hown
    exact ⟨fun ht => hnot (mem_append_left _ ht), fun ht => hnot (mem_append_right _ ht)⟩

end
end MmixCompiler
