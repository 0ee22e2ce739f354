import MmixCompiler.Proofs.Register.SpillSequence
import Mathlib.Data.Set.Basic

/-! Temporaries that are written before they are read. A judgement follows code and says what has been
written wherever it stands. Nothing else is live at the beginning of code that it allows, and code
stays allowed when temporaries move to the frame. -/

namespace MmixCompiler

open Mmix Fresh

/-- What has been written whenever code stands at a label. -/
abbrev Written := List (Label × Set Temp)

/-- Code that reads only what has been written. It begins with `known` written and ends with `out`. -/
def Assigns (w : Written) : Set Temp → List Instr → Set Temp → Prop
  | known, [], out => out ⊆ known
  | known, .label l :: code, out => ∃ there, (l, there) ∈ w ∧ there ⊆ known ∧ Assigns w there code out
  | known, .oper o :: code, out =>
    (∀ t ∈ o.uses, t ∈ known) ∧ (∀ l ∈ o.jumps, ∃ there, (l, there) ∈ w ∧ there ⊆ known) ∧
      Assigns w (known ∪ {t | t ∈ o.defs}) code out

section
variable {w : Written} {known known' mid out out' : Set Temp} {code more : List Instr}

theorem Assigns.mono (h : Assigns w known code out) (hknown : known ⊆ known') (hout : out' ⊆ out) :
    Assigns w known' code out' := by
  induction code generalizing known known' with
  | nil => exact (hout.trans h).trans hknown
  | cons i code ih =>
    cases i with
    | label l =>
      obtain ⟨there, hl, hthere, hcode⟩ := h
      exact ⟨there, hl, hthere.trans hknown, ih hcode Set.Subset.rfl⟩
    | oper o =>
      obtain ⟨huses, hjumps, hcode⟩ := h
      refine ⟨fun t ht => hknown (huses t ht), fun l hl => ?_, ih hcode (Set.union_subset_union_left _ hknown)⟩
      obtain ⟨there, hmem, hthere⟩ := hjumps l hl
      exact ⟨there, hmem, hthere.trans hknown⟩

theorem Assigns.append (h : Assigns w known code mid) (h' : Assigns w mid more out) :
    Assigns w known (code ++ more) out := by
  induction code generalizing known with
  | nil => exact h'.mono h Set.Subset.rfl
  | cons i code ih =>
    cases i with
    | label l =>
      obtain ⟨there, hl, hthere, hcode⟩ := h
      exact ⟨there, hl, hthere, ih hcode⟩
    | oper o => exact ⟨h.1, h.2.1, ih h.2.2⟩

theorem assigns_op {op : Op} (hjumps : op.jumps = []) (huses : ∀ u ∈ op.uses, u ∈ known)
    (hrest : Assigns w (known ∪ {t | t ∈ op.defs}) code out) : Assigns w known (op.instr :: code) out :=
  ⟨huses, by simp [hjumps], hrest⟩

theorem assigns_loadConst {a : Temp} {value : Int} :
    Assigns w known ((loadConst (.temp a) value).map Op.instr) (known ∪ {a}) := by
  unfold loadConst
  split <;> simp [Assigns, Op.instr, Op.uses, Op.defs, Op.jumps, Op.args, Reg.temp?]

end

section
variable {w : Written} {known out : Set Temp} {code : List Instr} {live : Liveness}

theorem Assigns.exists_drop (h : Assigns w known code out) (index : Nat) :
    ∃ there, Assigns w there (code.drop index) out := by
  induction index generalizing known code with
  | zero => exact ⟨known, h⟩
  | succ index ih =>
    cases code with
    | nil => exact ⟨known, h⟩
    | cons i code =>
      cases i with
      | label l =>
        obtain ⟨there, -, -, hcode⟩ := h
        exact ih hcode
      | oper o => exact ih h.2.2

/-- Only what has been written before the code is live at its beginning. -/
theorem Assigns.mem_of_liveIn (h : Assigns w known code out) (hw : (w.map Prod.fst).Nodup)
    (hlive : live.Solves code) {t : Temp} (ht : t ∈ live.liveIn 0) : t ∈ known := by
  -- What must have been written for the code from a place on to be allowed bounds what is live there.
  suffices hbound : ∀ index, ∀ t ∈ live.liveIn index,
      ∀ there, Assigns w there (code.drop index) out → t ∈ there from hbound 0 t ht known h
  apply hlive.least
  intro index i hi
  have hdrop : code.drop index = i :: code.drop (index + 1) := by
    obtain ⟨hlt, rfl⟩ := List.getElem?_eq_some_iff.mp hi
    exact List.drop_eq_getElem_cons hlt
  refine ⟨fun t ht there hthere => ?_, fun s hs t hclosed hdefs there hthere => ?_⟩
  · rw [hdrop] at hthere
    cases i with
    | label l => cases ht
    | oper o => exact hthere.1 t ht
  · rw [hdrop] at hthere
    obtain ⟨i', hi', ⟨rfl, -⟩ | ⟨l, hl, hindex⟩⟩ := hs
    · cases i with
      | label l =>
        obtain ⟨there', -, hsub, hcode⟩ := hthere
        exact hsub (hclosed there' hcode)
      | oper o => exact (hclosed _ hthere.2.2).resolve_right hdefs
    · -- A jump leads to a label, and the label tells what has been written at both ends.
      obtain rfl : i = i' := Option.some.inj (hi.symm.trans hi')
      cases i with
      | label l => cases hl
      | oper o =>
        obtain ⟨there₁, hmem₁, hsub⟩ := hthere.2.1 l hl
        obtain ⟨hlt, htarget, -⟩ := List.findIdx?_eq_some_iff_getElem.mp hindex
        have hlabel : code[s] = .label l := by
          cases hcode : code[s] <;> simp_all [Instr.label?]
        obtain ⟨there₂, hthere₂⟩ := h.exists_drop s
        rw [List.drop_eq_getElem_cons hlt, hlabel] at hthere₂
        obtain ⟨there₃, hmem₃, -, hcode⟩ := hthere₂
        obtain rfl : there₁ = there₃ := by
          have := List.inj_on_of_nodup_map hw hmem₁ hmem₃ rfl
          exact (Prod.mk.inj this).2
        apply hsub
        apply hclosed
        rw [List.drop_eq_getElem_cons hlt, hlabel]
        exact ⟨there₁, hmem₁, Set.Subset.rfl, hcode⟩

theorem mem_liveIn_zero (hlive : live.Solves code) {t : Temp} (hdefs : ∀ i ∈ code, t ∉ i.defs) {i : Instr}
    (hi : i ∈ code) (ht : t ∈ i.uses) : t ∈ live.liveIn 0 := by
  obtain ⟨index, hindex⟩ := List.getElem?_of_mem hi
  have hthere : t ∈ live.liveIn index := (hlive.mem_in index t).mpr ⟨i, hindex, .inl ht⟩
  clear hi ht hindex
  induction index with
  | zero => exact hthere
  | succ index ih =>
    apply ih
    obtain ⟨i', hi', -⟩ := (hlive.mem_in _ t).mp hthere
    obtain ⟨hlt, -⟩ := List.getElem?_eq_some_iff.mp hi'
    have hhere : code[index]? = some code[index] := List.getElem?_eq_getElem (by omega)
    refine (hlive.mem_in index t).mpr ⟨_, hhere, .inr ⟨?_, hdefs _ (List.getElem_mem _)⟩⟩
    exact (hlive.mem_out index t).mpr ⟨index + 1, ⟨_, hhere, .inl ⟨rfl, hlt⟩⟩, hthere⟩

end

/-- On every way from the beginning of code, all temporaries but one are written before they are read. -/
def WrittenFirst (fp : Temp) (code : List Instr) : Prop :=
  ∀ (way : Nat → Nat) (n : Nat), way 0 = 0 → (∀ k < n, Follows code (way k) (way (k + 1))) →
    ∀ i, code[way n]? = some i → ∀ t ∈ i.uses, t ≠ fp →
      ∃ k < n, ∃ j, code[way k]? = some j ∧ t ∈ j.defs

theorem Liveness.Solves.writtenFirst {code : List Instr} {live : Liveness} (hlive : live.Solves code)
    {fp : Temp} (h : ∀ t ∈ live.liveIn 0, t = fp) : WrittenFirst fp code := by
  intro way n hzero hway i hi t ht hne
  by_contra hnone
  simp only [not_exists, not_and] at hnone
  -- Without a write on the way, the temporary is live at every place of it.
  have hback : ∀ k ≤ n, t ∈ live.liveIn (way (n - k)) := by
    intro k
    induction k with
    | zero => exact fun _ => (hlive.mem_in _ t).mpr ⟨i, hi, .inl ht⟩
    | succ k ih =>
      intro hk
      have hfollows := hway (n - (k + 1)) (by omega)
      rw [show n - (k + 1) + 1 = n - k by omega] at hfollows
      obtain ⟨j, hj, -⟩ := id hfollows
      refine (hlive.mem_in _ t).mpr ⟨j, hj, .inr ⟨?_, hnone _ (by omega) j hj⟩⟩
      exact (hlive.mem_out _ t).mpr ⟨_, hfollows, ih (by omega)⟩
  have hentry := hback n (Nat.le_refl n)
  rw [Nat.sub_self, hzero] at hentry
  exact hne (h t hentry)

/-- Code of a function that reads nothing but its frame pointer before writing it. -/
structure Starts (fp : Temp) (code : List Instr) : Prop where
  assigns : ∃ w out, (w.map Prod.fst).Nodup ∧ (∀ e ∈ w, fp ∈ e.2) ∧ Assigns w {fp} code out
  reads : ∃ i ∈ code, fp ∈ i.uses
  keeps : ∀ i ∈ code, fp ∉ i.defs

theorem Starts.liveIn_zero {fp : Temp} {code : List Instr} (h : Starts fp code) {live : Liveness}
    (hlive : live.Solves code) : live.liveIn 0 = [fp] := by
  obtain ⟨w, out, hnodup, -, hassigns⟩ := h.assigns
  obtain ⟨i, hi, hreads⟩ := h.reads
  have honly : ∀ t ∈ live.liveIn 0, t = fp := fun t ht => hassigns.mem_of_liveIn hnodup hlive ht
  have hmem : fp ∈ live.liveIn 0 := mem_liveIn_zero hlive h.keeps hi hreads
  exact (hlive.sortedIn 0).eq_of_subset (List.pairwise_singleton _ fp)
    (fun t ht => List.mem_singleton.mpr (honly t ht)) (List.length_pos_of_mem hmem)

section
variable {w : Written} {known out : Set Temp} {t fp : Temp} {distance : Int} {low high : Nat}

theorem assigns_slotOps {a : Temp} (hfp : fp ∈ known) :
    Assigns w known ((slotOps a fp distance).map Op.instr) (known ∪ {a}) := by
  rw [slotOps, List.map_append]
  refine assigns_loadConst.append (assigns_op rfl ?_ Set.subset_union_left)
  simp [Op.uses, Op.args, Op.Arg.ofValue, Reg.temp?, hfp]

theorem assigns_fetch {new a : Temp} (hfp : fp ∈ known) :
    Assigns w known ((fetch new a fp distance).map Op.instr) (known ∪ {new}) := by
  rw [fetch, List.map_append]
  refine (assigns_slotOps hfp).append (assigns_op rfl ?_ ?_)
  · simp [Op.uses, Op.args, Op.Arg.ofValue, Reg.temp?]
  · have hdefs : {u | u ∈ (Op.load (.temp new) (.temp a) (.imm 0)).defs} = {new} := by
      simp [Op.defs, Op.args, Op.Arg.ofValue, Reg.temp?]
    rw [hdefs]
    exact Set.union_subset_union_left _ Set.subset_union_left

theorem assigns_keep {new a : Temp} (hfp : fp ∈ known) (hnew : new ∈ known) :
    Assigns w known ((keep new a fp distance).map Op.instr) known := by
  rw [keep, List.map_append]
  refine (assigns_slotOps hfp).append (assigns_op rfl ?_ ?_)
  · simp [Op.uses, Op.args, Op.Arg.ofValue, Reg.temp?, hnew]
  · intro u hu
    exact .inl (.inl hu)

/-- What has been written, without a temporary that has moved to the frame. -/
def Written.without (w : Written) (t : Temp) : Written := w.map fun e => (e.1, e.2 \ {t})

theorem Written.mem_without {l : Label} {there : Set Temp} (h : (l, there) ∈ w) : (l, there \ {t}) ∈ w.without t :=
  List.mem_map.mpr ⟨_, h, rfl⟩

/-- An operation's block reads the frame pointer, and writes what it puts in the place of the temporary
before reading it. -/
theorem Block.assigns {o : Oper} {block : List Instr} (h : Block t fp distance low high (.oper o) block)
    (hfp : fp ∈ known) (hne : fp ≠ t) (huses : ∀ u ∈ o.uses, u ∈ known)
    (hjumps : ∀ l ∈ o.jumps, ∃ there, (l, there) ∈ w ∧ there ⊆ known) :
    Assigns (w.without t) (known \ {t}) block ((known ∪ {u | u ∈ o.defs}) \ {t}) := by
  obtain ⟨new, before, after, -, rfl, hbefore, hafter⟩ := h.of_oper
  have hstart : fp ∈ known \ {t} := ⟨hfp, hne⟩
  -- What is known when the renamed operation is reached, and after it.
  obtain ⟨mid, hmid, hsub, hnew⟩ : ∃ mid, Assigns (w.without t) (known \ {t}) (before.map Op.instr) mid ∧
      known \ {t} ⊆ mid ∧ (t ∈ o.uses → new ∈ mid) := by
    obtain ⟨hnot, rfl⟩ | ⟨-, a, -, -, rfl⟩ := hbefore
    · exact ⟨_, Set.Subset.rfl, Set.Subset.rfl, fun h => absurd h hnot⟩
    · exact ⟨_, assigns_fetch hstart, Set.subset_union_left, fun _ => .inr rfl⟩
  refine hmid.append ⟨fun u hu => ?_, fun l hl => ?_, ?_⟩
  · rcases mem_rename hu with ⟨rfl, ht⟩ | ⟨hu, hut⟩
    · exact hnew ht
    · exact hsub ⟨huses u hu, hut⟩
  · obtain ⟨there, hmem, hthere⟩ := hjumps l hl
    exact ⟨_, Written.mem_without hmem, (Set.sdiff_subset_sdiff_left hthere).trans hsub⟩
  · have hout : (known ∪ {u | u ∈ o.defs}) \ {t} ⊆ mid ∪ {u | u ∈ (o.rename t new).defs} := by
      rintro u ⟨hu | hu, hut⟩
      · exact .inl (hsub ⟨hu, hut⟩)
      · exact .inr (mem_rename_of_mem hu hut)
    obtain ⟨-, rfl⟩ | ⟨ht, a, -, -, rfl⟩ := hafter
    · exact hout
    · exact (assigns_keep (.inl (hsub hstart)) (.inr (new_mem_rename ht))).mono Set.Subset.rfl hout

theorem assigns_blocks {instrs : List Instr} {blocks : List (List Instr)}
    (h : List.Forall₂ (Block t fp distance low high) instrs blocks) (hne : fp ≠ t)
    (hw : ∀ e ∈ w, fp ∈ e.2) (hfp : fp ∈ known) (hcode : Assigns w known instrs out) :
    Assigns (w.without t) (known \ {t}) blocks.flatten (out \ {t}) := by
  induction h generalizing known with
  | nil => exact Set.sdiff_subset_sdiff_left hcode
  | @cons i block instrs blocks hblock _ ih =>
    cases i with
    | label l =>
      obtain ⟨there, hmem, hthere, hcode⟩ := hcode
      cases hblock
      exact ⟨_, Written.mem_without hmem, Set.sdiff_subset_sdiff_left hthere, ih (hw _ hmem) hcode⟩
    | oper o =>
      obtain ⟨huses, hjumps, hcode⟩ := hcode
      exact (hblock.assigns hfp hne huses hjumps).append (ih (.inl hfp) hcode)

end

section
variable {t fp : Temp} {distance : Int} {low high : Nat} {i : Instr} {block : List Instr}

theorem Block.reads (h : Block t fp distance low high i block) (hne : fp ≠ t) (hi : fp ∈ i.uses) :
    ∃ i' ∈ block, fp ∈ i'.uses := by
  cases i with
  | label l => cases hi
  | oper o =>
    obtain ⟨new, before, after, -, rfl, -, -⟩ := h.of_oper
    exact ⟨.oper (o.rename t new), by simp, mem_rename_of_mem hi hne⟩

theorem mem_defs_of_slot {new a u : Temp} {op : Op} (hu : u ∈ op.defs)
    (hop : op ∈ fetch new a fp distance ∨ op ∈ keep new a fp distance) : u = a ∨ u = new := by
  rcases mem_access hop with hop | rfl | rfl
  · rw [(slotOps_spec hop).2.1] at hu
    exact .inl (List.mem_singleton.mp hu)
  · exact .inr (List.mem_singleton.mp hu)
  · cases hu

theorem Block.mem_defs (h : Block t fp distance low high i block) {i' : Instr} (hi : i' ∈ block) {u : Temp}
    (hu : u ∈ i'.defs) : u ∈ i.defs ∨ low ≤ u := by
  rcases h.mem_cases hi with ⟨-, rfl⟩ | ⟨new, hnew, -, ⟨o, rfl, rfl⟩ | ⟨op, a, ha, -, hop, rfl⟩⟩
  · exact .inl hu
  · rcases mem_rename hu with ⟨rfl, -⟩ | ⟨hu, -⟩
    · exact .inr hnew
    · exact .inl hu
  · rcases mem_defs_of_slot hu hop with rfl | rfl
    · exact .inr ha
    · exact .inr hnew

end

section
variable {r r' : Routine} {s s' : Supply} {t : Temp} {ts : List Temp}

theorem Starts.spill (h : Starts r.frame.fp r.instrs) (hr : r.Below s) (hne : t ≠ r.frame.fp)
    (hspill : Gives (r.spill t) s r' s') : Starts r.frame.fp r'.instrs := by
  obtain ⟨-, blocks, hblocks, rfl⟩ := Routine.blocks_of_spill hspill
  obtain ⟨w, out, hnodup, hw, hassigns⟩ := h.assigns
  refine ⟨⟨w.without t, out \ {t}, ?_, ?_, ?_⟩, ?_, ?_⟩
  · simpa [Written.without, Function.comp_def] using hnodup
  · intro e he
    obtain ⟨e', he', rfl⟩ := List.mem_map.mp he
    exact ⟨hw e' he', hne.symm⟩
  · refine (assigns_blocks hblocks hne.symm hw (Set.mem_singleton _) hassigns).mono ?_ Set.Subset.rfl
    exact Set.sdiff_subset
  · obtain ⟨i, hi, hreads⟩ := h.reads
    obtain ⟨block, hblock, hrel⟩ := exists_right_of_forall₂ hblocks hi
    obtain ⟨i', hi', hreads⟩ := hrel.reads hne.symm hreads
    exact ⟨i', List.mem_flatten.mpr ⟨block, hblock, hi'⟩, hreads⟩
  · intro i hi hdefs
    obtain ⟨i', hi', block, hrel, hi⟩ := Routine.exists_block hspill hi
    rcases hrel.mem_defs hi hdefs with hdefs | hlow
    · exact h.keeps i' hi' hdefs
    · exact absurd hr.1 (Nat.not_lt.mpr hlow)

theorem Spills.starts (h : Spills r s ts r' s') (hr : r.Below s) (hstarts : Starts r.frame.fp r.instrs) :
    Starts r.frame.fp r'.instrs := by
  induction h with
  | nil => exact hstarts
  | cons _ hne h _ ih =>
    rw [← Routine.frame_of_spill h]
    apply ih (hr.spill h)
    rw [Routine.frame_of_spill h]
    exact hstarts.spill hr hne h

/-- Allocation keeps the beginning of code as it is, whatever it spills. -/
theorem Starts.allocate {registers : Nat} {a : Routine.Allocated} (h : Starts r.frame.fp r.instrs)
    (hr : r.Below s) (hallocate : Gives (r.allocate registers) s a s') :
    Starts r.frame.fp a.routine.instrs := by
  obtain ⟨ts, r', hrounds, heq⟩ := spillRounds_of_rounds hallocate
  rw [heq]
  exact (hrounds.spills hr).1.starts hr h

end

end MmixCompiler
