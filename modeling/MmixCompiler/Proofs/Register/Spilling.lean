import MmixCompiler.Proofs.Register.Rewriting

/-! Running code after temporaries have moved to the frame. From one boundary of the old code to the
next the new code fetches what the instruction reads and stores what it writes, so the words are
where they were, apart from those that moved, which are in their slots. -/

namespace MmixCompiler

open Mmix Fresh List

variable {code : List Instr} {b : Octa} {o : Oper}

/-- An operation neither depends on some octabytes nor changes them. -/
def Avoids (m : Meaning Octa Memory) (slots : List (BitVec 61)) (o : Oper) (c : Config Octa Memory) : Prop :=
  ∀ mem : Memory, (∀ x ∉ slots, mem x = c.mem x) →
    let e := o.effect m c
    let e' := o.effect m { c with mem }
    (∀ k < o.defs.length, e'.results k = e.results k) ∧ e'.choice = e.choice ∧
      (∀ x ∉ slots, e'.mem x = e.mem x) ∧ ∀ x ∈ slots, e'.mem x = mem x

/-- An operation avoids the slots, leaves the frame pointer as it is, and reads none of some
temporaries before it has been written. -/
structure Fair (m : Meaning Octa Memory) (fp : Temp) (slots : List (BitVec 61)) (ts : List Temp)
    (o : Oper) (c : Config Octa Memory) : Prop where
  avoids : Avoids m slots o c
  frame : writeAll (o.effect m c).results 0 o.defs c.temps fp = c.temps fp
  written : ∀ t ∈ ts, t ∈ o.uses → t ∈ c.written

section
variable {m : Meaning Octa Memory} {fp a new : Temp} {slots : List (BitVec 61)} {ts : List Temp}
  {d : Config Octa Memory} {op : Op} {distance : Int}

theorem fair_write (hm : Faithful m op) {v : Octa} (hop : ∀ mem : Memory, (∀ x ∉ slots, mem x = d.mem x) →
      op.outcome? (op.uses.map d.temps) mem = some (some v, mem))
    (hdefs : op.defs = [a]) (hfp : fp ≠ a) (hts : ∀ t ∈ ts, t ∈ op.uses → t ∈ d.written) :
    Fair m fp slots ts op.oper d := by
  refine ⟨fun mem hmem => ?_, writeAll_of_notMem (by simp [hdefs, hfp]), hts⟩
  obtain ⟨hresult, hm₁, hchoice⟩ := hm.effect (hop d.mem fun _ _ => rfl)
  obtain ⟨hresult', hm₂, hchoice'⟩ := hm.effect (d := { d with mem }) (hop mem hmem)
  refine ⟨fun k hk => ?_, by rw [hchoice, hchoice'], fun x hx => by rw [hm₁, hm₂, hmem x hx],
    fun x _ => by rw [hm₂]⟩
  obtain rfl : k = 0 := by simpa [hdefs] using hk
  rw [hresult v rfl, hresult' v rfl]

theorem fair_store (hm : Faithful m op) {y : BitVec 61} {v : Octa} (hy : y ∉ slots)
    (hop : ∀ mem : Memory, op.outcome? (op.uses.map d.temps) mem = some (none, mem.set y v))
    (hdefs : op.defs = []) (hts : ∀ t ∈ ts, t ∈ op.uses → t ∈ d.written) :
    Fair m fp slots ts op.oper d := by
  refine ⟨fun mem hmem => ?_, writeAll_of_notMem (by simp [hdefs]), hts⟩
  obtain ⟨-, hm₁, hchoice⟩ := hm.effect (hop d.mem)
  obtain ⟨-, hm₂, hchoice'⟩ := hm.effect (d := { d with mem }) (hop mem)
  refine ⟨by simp [hdefs], by rw [hchoice, hchoice'], fun x hx => ?_, fun x hx => ?_⟩
  · rw [hm₁, hm₂, Memory.set, Memory.set, hmem x hx]
  · rw [hm₂, Memory.set, if_neg]
    rintro rfl
    exact hy hx

theorem slotOps_outcome? (h : op ∈ slotOps a fp distance) (temps : Temp → Octa) :
    ∃ v, ∀ mem, op.outcome? (op.uses.map temps) mem = some (some v, mem) := by
  obtain h | rfl := (mem_append.mp h).imp_right mem_singleton.mp
  · obtain ⟨n, -, rfl⟩ | ⟨part, n, -, rfl⟩ | rfl := loadConst_cases h <;> exact ⟨_, fun _ => rfl⟩
  · exact ⟨_, fun _ => rfl⟩

theorem runs_slotOps (hcode : ∀ k op, (slotOps a fp distance)[k]? = some op → code[d.index + k]? = some op.instr)
    (hm : ∀ op ∈ slotOps a fp distance, Faithful m op) (hfp : fp ≠ a) (hb : d.temps fp = b)
    (hts : fp ∉ ts) :
    Runs m code (Fair m fp slots ts) d (d.puts a (b - .ofInt 64 distance) (slotOps a fp distance).length) := by
  refine runs_compute hcode (fun op hop => ⟨hm op hop, ?_⟩) (fun op hop x n hwritten => ?_) (.inr ?_)
    (hb ▸ compute_slotOps hfp distance) rfl
  · obtain ⟨hjumps, hdefs, -⟩ := slotOps_spec hop
    exact ⟨hjumps, hdefs⟩
  · obtain ⟨-, hdefs, huses⟩ := slotOps_spec hop
    obtain ⟨v, hv⟩ := slotOps_outcome? hop (d.puts a x n).temps
    refine fair_write (hm op hop) (fun mem _ => hv mem) hdefs hfp fun t ht hu => ?_
    rcases huses t hu with rfl | rfl
    · exact hwritten hu
    · exact absurd ht hts
  · simp [slotOps, loadConst, Op.uses, Op.args]

theorem slotOps_ne_nil : slotOps a fp distance ≠ [] := by simp [slotOps]

theorem getElem?_of_append {α : Type} {xs ys : List α} {k : Nat} {x : α} (h : xs[k]? = some x) :
    (xs ++ ys)[k]? = some x :=
  (List.getElem?_append_left (List.getElem?_eq_some_iff.mp h).1).trans h

theorem runs_fetch (hcode : ∀ k op, (fetch new a fp distance)[k]? = some op → code[d.index + k]? = some op.instr)
    (hm : ∀ op ∈ fetch new a fp distance, Faithful m op) (ha : fp ≠ a) (hnew : fp ≠ new)
    (hb : d.temps fp = b) (hts : fp ∉ ts) (hslot : slot b distance ∉ slots) :
    Runs m code (Fair m fp slots ts) d ((d.puts a (b - .ofInt 64 distance) (slotOps a fp distance).length).puts new
        (d.mem (slot b distance)) 1) := by
  have haddress : Runs m code (Fair m fp slots ts) d _ :=
    runs_slotOps (fun k op hk => hcode k op (getElem?_of_append hk))
      (fun op hop => hm op (mem_append_left _ hop)) ha hb hts
  refine haddress.trans ?_
  have hload : (fetch new a fp distance)[(slotOps a fp distance).length]? =
      some (.load (.temp new) (.temp a) (.imm 0)) := by simp [fetch]
  have hload' : code[_]? = some (Instr.oper (Op.oper (.load (.temp new) (.temp a) (.imm 0)))) := hcode _ _ hload
  have hfaithful := hm _ (mem_of_getElem? hload)
  have hop : ∀ mem : Memory, Op.outcome? (.load (.temp new) (.temp a) (.imm 0)) ((Op.uses
      (.load (.temp new) (.temp a) (.imm 0))).map (d.puts a (b - .ofInt 64 distance)
        (slotOps a fp distance).length).temps) mem = some (some (mem (slot b distance)), mem) := by
    intro mem
    simp [Op.uses, Op.args, Op.Arg.ofValue, Reg.temp?, Op.outcome?, slot]
  refine .single hload' ?_ (step_write hload' hfaithful rfl rfl (hop _))
  refine fair_write (v := d.mem (slot b distance)) hfaithful (fun mem hmem => ?_) rfl hnew fun t ht hu => ?_
  · rw [hop mem, hmem _ hslot]; rfl
  · obtain rfl : t = a := by simpa [Op.uses, Op.args, Op.Arg.ofValue, Reg.temp?] using hu
    simp [slotOps_ne_nil]

theorem runs_keep (hcode : ∀ k op, (keep new a fp distance)[k]? = some op → code[d.index + k]? = some op.instr)
    (hm : ∀ op ∈ keep new a fp distance, Faithful m op) (ha : fp ≠ a) (hnew : new ≠ a)
    (hwritten : new ∈ d.written) (hb : d.temps fp = b) (hts : fp ∉ ts)
    (hslot : slot b distance ∉ slots) :
    Runs m code (Fair m fp slots ts) d
      { d.puts a (b - .ofInt 64 distance) (slotOps a fp distance).length with
        index := d.index + (keep new a fp distance).length
        mem := d.mem.set (slot b distance) (d.temps new) } := by
  have haddress : Runs m code (Fair m fp slots ts) d _ :=
    runs_slotOps (fun k op hk => hcode k op (getElem?_of_append hk))
      (fun op hop => hm op (mem_append_left _ hop)) ha hb hts
  refine haddress.trans ?_
  have hstore : (keep new a fp distance)[(slotOps a fp distance).length]? =
      some (.store (.temp new) (.temp a) (.imm 0)) := by simp [keep]
  have hstore' : code[_]? = some (Instr.oper (Op.oper (.store (.temp new) (.temp a) (.imm 0)))) := hcode _ _ hstore
  have hfaithful := hm _ (mem_of_getElem? hstore)
  have hop : ∀ mem : Memory, Op.outcome? (.store (.temp new) (.temp a) (.imm 0)) ((Op.uses
      (.store (.temp new) (.temp a) (.imm 0))).map (d.puts a (b - .ofInt 64 distance)
        (slotOps a fp distance).length).temps) mem = some (none, mem.set (slot b distance) (d.temps new)) := by
    intro mem
    simp [Op.uses, Op.args, Op.Arg.ofValue, Reg.temp?, Op.outcome?, slot, hnew]
  have hlength : (keep new a fp distance).length = (slotOps a fp distance).length + 1 := by simp [keep]
  have hstep := step_store hstore' hfaithful rfl rfl (hop _)
  rw [hlength]
  refine .single hstore' ?_ hstep
  refine fair_store hfaithful hslot hop rfl fun t ht hu => ?_
  have hu : t = new ∨ t = a := by simpa [Op.uses, Op.args, Op.Arg.ofValue, Reg.temp?] using hu
  rcases hu with rfl | rfl
  · simp [hwritten]
  · simp [slotOps_ne_nil]

end

/-- The words of temporaries that do not move are the same, and so is memory but for one slot. -/
structure Ready (t : Temp) (low : Nat) (x : BitVec 61) (c d : Config Octa Memory) : Prop where
  temps : ∀ u < low, u ≠ t → d.temps u = c.temps u
  mem : ∀ y ≠ x, d.mem y = c.mem y
  choices : d.choices = c.choices
  written : ∀ u ∈ c.written, u ≠ t → u ∈ d.written

section
variable {m : Meaning Octa Memory} {t fp : Temp} {new low : Nat} {x : BitVec 61}
  {slots : List (BitVec 61)} {ts : List Temp} {c d : Config Octa Memory} {o : Oper}

theorem new_mem_rename {ts : List Temp} (h : t ∈ ts) : new ∈ rename t new ts := mem_map.mpr ⟨t, h, if_pos rfl⟩

theorem Ready.effect_eq (h : Ready t low x c d) (hlow : ∀ u ∈ o.uses, u < low)
    (hnew : t ∈ o.uses → d.temps new = c.temps t) (mem : Memory) :
    (o.rename t new).effect m { d with mem } = o.effect m { c with mem } := by
  have hwords : (o.rename t new).uses.map d.temps = o.uses.map c.temps := by
    simp only [Oper.rename, rename, map_map]
    refine map_congr_left fun u hu => ?_
    simp only [Function.comp_apply]
    split
    · rename_i heq; rw [heq] at hu ⊢; exact hnew hu
    · rename_i hne; exact h.temps u (hlow u hu) hne
  rw [Oper.effect, hwords]
  rfl

theorem Ready.effect (h : Ready t low x c d) (hlow : ∀ u ∈ o.uses, u < low)
    (hnew : t ∈ o.uses → d.temps new = c.temps t) (hfair : Avoids m (x :: slots) o c) :
    let e := o.effect m c
    let e' := (o.rename t new).effect m d
    (∀ k < o.defs.length, e'.results k = e.results k) ∧ e'.choice = e.choice ∧
      (∀ y ≠ x, e'.mem y = e.mem y) ∧ e'.mem x = d.mem x := by
  obtain ⟨hresults, hchoice, hoff, hon⟩ := hfair d.mem fun y hy =>
    h.mem y fun hyx => hy (hyx ▸ mem_cons_self)
  obtain ⟨-, -, -, hsame⟩ := hfair c.mem fun _ _ => rfl
  have heffect : (o.rename t new).effect m d = o.effect m { c with mem := d.mem } := h.effect_eq hlow hnew d.mem
  simp only [heffect]
  refine ⟨hresults, hchoice, fun y hy => ?_, hon x mem_cons_self⟩
  by_cases hslot : y ∈ x :: slots
  · rw [hon y hslot, h.mem y hy]
    exact (hsame y hslot).symm
  · exact hoff y hslot

theorem writeAll_congr {results results' : Nat → Octa} {ts : List Temp} {k : Nat}
    {temps : Temp → Octa} (h : ∀ j < ts.length, results (k + j) = results' (k + j)) :
    writeAll results k ts temps = writeAll results' k ts temps := by
  induction ts generalizing k temps with
  | nil => rfl
  | cons t ts ih =>
    have h₀ : results k = results' k := h 0 (by simp)
    rw [writeAll, writeAll, h₀]
    refine ih fun j hj => ?_
    have hj := h (j + 1) (by simpa using hj)
    rwa [Nat.add_right_comm, Nat.add_assoc]

theorem Ready.writeAll (h : Ready t low x c d) {results results' : Nat → Octa}
    (hresults : ∀ k < o.defs.length, results' k = results k) (hdefs : ∀ u ∈ o.defs, u < low)
    (hnew : low ≤ new) {u : Nat} (hu : u < low) (hcase : u ∈ o.defs ∨ u ≠ t) :
    Mmix.writeAll results' 0 (o.rename t new).defs d.temps (if u = t then new else u) =
      Mmix.writeAll results 0 o.defs c.temps u := by
  have hcongr : Mmix.writeAll results 0 o.defs c.temps = Mmix.writeAll results' 0 o.defs c.temps :=
    writeAll_congr fun k hk => by rw [Nat.zero_add, hresults k hk]
  rw [hcongr]
  refine writeAll_map (f := fun v => if v = t then new else v) (fun v hv heq => ?_) ?_
  · have hv := hdefs v hv
    by_cases hvt : v = t <;> by_cases hut : u = t
    · rw [hvt, hut]
    · simp only [hvt, hut, if_true, if_false] at heq
      omega
    · simp only [hvt, hut, if_true, if_false] at heq
      exact absurd hv (Nat.not_lt.mpr (heq ▸ hnew))
    · simpa only [hvt, hut, if_false] using heq
  · by_cases hut : u = t
    · exact .inl (hcase.resolve_right fun h => h hut)
    · exact .inr (by simpa only [hut, if_false] using h.temps u hu hut)

theorem Ready.advance (h : Ready t low x c d) (huses : ∀ u ∈ o.uses, u < low)
    (hdefs : ∀ u ∈ o.defs, u < low) (hnew : low ≤ new) (hword : t ∈ o.uses → d.temps new = c.temps t)
    (havoids : Avoids m (x :: slots) o c) (index j : Nat) :
    Ready t low x (c.advance o (o.effect m c) index) (d.advance (o.rename t new) ((o.rename t new).effect m d) j) := by
  obtain ⟨hresults, hchoice, hoff, -⟩ := h.effect huses hword havoids
  refine ⟨fun u hu hut => ?_, hoff, ?_, fun u hu hut => ?_⟩
  · have hwrite := h.writeAll hresults hdefs hnew hu (.inr hut)
    rwa [if_neg hut] at hwrite
  · simp only [Config.advance, h.choices, hchoice]
    rfl
  · refine mem_append.mpr ((mem_append.mp hu).imp (fun hu => h.written u hu hut) fun hu => ?_)
    exact mem_map.mpr ⟨u, hu, if_neg hut⟩

theorem Ready.fair (h : Ready t low x c d) (hlow : ∀ u ∈ o.uses, u < low)
    (hdefs : ∀ u ∈ o.defs, u < low) (hnewlow : low ≤ new)
    (hnew : t ∈ o.uses → d.temps new = c.temps t ∧ new ∈ d.written)
    (hfair : Fair m fp (x :: slots) (t :: ts) o c) (hx : x ∉ slots) (hfp : fp < low)
    (hne : fp ≠ t) : Fair m fp slots ts (o.rename t new) d := by
  have hword := fun ht => (hnew ht).1
  obtain ⟨hresults, hchoice, hoff, hon⟩ := h.effect hlow hword hfair.avoids
  refine ⟨fun mem hmem => ?_, ?_, fun u hu huse => ?_⟩
  · have hmem' : ∀ y ∉ x :: slots, mem y = c.mem y := fun y hy => by
      rw [mem_cons, not_or] at hy
      rw [hmem y hy.2, h.mem y hy.1]
    obtain ⟨hresults', hchoice', hoff', hon'⟩ := hfair.avoids mem hmem'
    rw [h.effect_eq hlow hword mem]
    refine ⟨fun k hk => ?_, hchoice'.trans hchoice.symm, fun y hy => ?_, fun y hy => ?_⟩
    · have hk : k < o.defs.length := by simpa [Oper.rename, rename] using hk
      rw [hresults' k hk, hresults k hk]
    · by_cases hyx : y = x
      · rw [hyx, hon' x mem_cons_self, hon, hmem x hx]
      · rw [hoff' y (by simp [hyx, hy]), hoff y hyx]
    · exact hon' y (mem_cons_of_mem _ hy)
  · have hframe := h.writeAll hresults hdefs hnewlow hfp (.inr hne)
    rw [if_neg hne, hfair.frame] at hframe
    rw [h.temps fp hfp hne]
    exact hframe
  · rcases mem_rename huse with ⟨rfl, ht⟩ | ⟨huse, hut⟩
    · exact (hnew ht).2
    · exact h.written u (hfair.written u (mem_cons_of_mem _ hu) huse) hut

end

/-- What moves is in its slot once it has been written, and the new code is at the block of the
instruction. -/
structure Moved (t : Temp) (low : Nat) (x : BitVec 61) (start : Nat → Nat)
    (c d : Config Octa Memory) : Prop extends Ready t low x c d where
  index : d.index = start c.index
  kept : t ∈ c.written → d.mem x = c.temps t

/-- Code, and its blocks after a temporary has moved to a slot that none of `slots` is. -/
structure Move (m : Meaning Octa Memory) (code : List Instr) (blocks : List (List Instr))
    (t fp : Temp) (distance : Int) (low high : Nat) (b : Octa) (slots : List (BitVec 61))
    (ts : List Temp) : Prop where
  blocks : List.Forall₂ (Block t fp distance low high) code blocks
  temps : ∀ i ∈ code, ∀ u ∈ i.temps, u < low
  moved : t < low ∧ t ≠ fp ∧ t ∉ ts
  frame : fp < low ∧ fp ∉ ts
  jumps : ∀ o, .oper o ∈ code → o.jumps ≠ [] → o.defs = []
  meaning : ∀ new a, ∀ op ∈ fetch new a fp distance ++ keep new a fp distance, Faithful m op
  slot : slot b distance ∉ slots

section
variable {m : Meaning Octa Memory} {code : List Instr} {blocks : List (List Instr)} {t fp : Temp}
  {distance : Int} {low high : Nat} {b : Octa} {slots : List (BitVec 61)} {ts : List Temp}
  {c c' d : Config Octa Memory}

section

variable (M : Move m code blocks t fp distance low high b slots ts)

include M

theorem Move.next {new index : Nat}
    {choice : Option Nat} (hnext : o.next code c.index choice = some index) (j : Nat) :
    choice = none ∧ index = c.index + 1 ∧ (o.rename t new).next blocks.flatten j choice = some (j + 1) ∨ o.jumps ≠ [] ∧
        (o.rename t new).next blocks.flatten j choice = some (blockStart blocks index) := by
  cases choice with
  | none =>
    cases hnext
    exact .inl ⟨rfl, rfl, rfl⟩
  | some k =>
    obtain ⟨l, hl, hnext⟩ := Option.bind_eq_some_iff.mp hnext
    refine .inr ⟨fun h => by simp [h] at hl, Option.bind_eq_some_iff.mpr ⟨l, hl, ?_⟩⟩
    rw [labelIndex?_flatten M.blocks fun _ _ h => h.label?_eq, hnext]
    rfl

theorem Move.before (h : Ready t low (Mmix.slot b distance) c d) (hb : c.temps fp = b) {new : Nat}
    {before : List Op} (hnew : low ≤ new)
    (hbefore : t ∉ o.uses ∧ before = [] ∨ t ∈ o.uses ∧ ∃ a : Nat, low ≤ a ∧ a ≠ new ∧ before = fetch new a fp distance)
    (hcode : ∀ k op, before[k]? = some op → blocks.flatten[d.index + k]? = some op.instr)
    (hword : t ∈ o.uses → d.mem (Mmix.slot b distance) = c.temps t) :
    ∃ d₁, Runs m blocks.flatten (Fair m fp slots ts) d d₁ ∧ d₁.index = d.index + before.length ∧
      Ready t low (Mmix.slot b distance) c d₁ ∧ d₁.mem = d.mem ∧
        (t ∈ o.uses → d₁.temps new = c.temps t ∧ new ∈ d₁.written) := by
  obtain ⟨hnot, rfl⟩ | ⟨huse, a, ha, hne, rfl⟩ := hbefore
  · exact ⟨d, .refl, rfl, h, rfl, fun h => absurd h hnot⟩
  · have hlt : ∀ u < low, u ≠ a ∧ u ≠ new := fun u hu => by omega
    have hfp := hlt fp M.frame.1
    have hrun : Runs m blocks.flatten (Fair m fp slots ts) d _ := runs_fetch hcode
      (fun op hop => M.meaning new a op (mem_append_left _ hop)) hfp.1 hfp.2
      ((h.temps fp M.frame.1 M.moved.2.1.symm).trans hb) M.frame.2 M.slot
    refine ⟨_, hrun, ?_, ⟨fun u hu hut => ?_, h.mem, h.choices, fun u hu hut => ?_⟩, rfl, fun _ => ?_⟩
    · simp [fetch, Nat.add_assoc]
    · simp [hlt u hu, h.temps u hu hut]
    · simp [h.written u hu hut]
    · simp [hword huse]

theorem Move.after (h : Ready t low (Mmix.slot b distance) c d) (hb : c.temps fp = b) {new : Nat}
    {after : List Op}
    (hafter : t ∉ o.defs ∧ after = [] ∨ t ∈ o.defs ∧ ∃ a : Nat, low ≤ a ∧ a ≠ new ∧ after = keep new a fp distance)
    (hcode : ∀ k op, after[k]? = some op → blocks.flatten[d.index + k]? = some op.instr)
    (hword : t ∈ o.defs → d.temps new = c.temps t ∧ new ∈ d.written)
    (hkept : t ∉ o.defs → t ∈ c.written → d.mem (Mmix.slot b distance) = c.temps t) :
    ∃ d₁, Runs m blocks.flatten (Fair m fp slots ts) d d₁ ∧ d₁.index = d.index + after.length ∧
      Ready t low (Mmix.slot b distance) c d₁ ∧ (t ∈ c.written → d₁.mem (Mmix.slot b distance) = c.temps t) := by
  obtain ⟨hnot, rfl⟩ | ⟨hdef, a, ha, hne, rfl⟩ := hafter
  · exact ⟨d, .refl, rfl, h, hkept hnot⟩
  · have hlt : ∀ u < low, u ≠ a := fun u hu => by omega
    obtain ⟨hvalue, hwritten⟩ := hword hdef
    have hrun : Runs m blocks.flatten (Fair m fp slots ts) d _ := runs_keep hcode
      (fun op hop => M.meaning new a op (mem_append_right _ hop)) (hlt fp M.frame.1) hne.symm
      hwritten ((h.temps fp M.frame.1 M.moved.2.1.symm).trans hb) M.frame.2 M.slot
    refine ⟨_, hrun, rfl, ⟨fun u hu hut => ?_, fun y hy => ?_, h.choices, fun u hu hut => ?_⟩, fun _ => ?_⟩
    · simp [hlt u hu, h.temps u hu hut]
    · simp [Memory.set, hy, h.mem y hy]
    · simp [h.written u hu hut]
    · simp [Memory.set, hvalue]

/-- A step of the old code, and the way through the block of its instruction. -/
theorem Move.step (h : Moved t low (Mmix.slot b distance) (blockStart blocks) c d) (hb : c.temps fp = b)
    (hfair : ∀ o, code[c.index]? = some (.oper o) → Fair m fp (Mmix.slot b distance :: slots) (t :: ts) o c)
    (hstep : Mmix.step m code c = some c') :
    c'.temps fp = b ∧ ∃ d', Runs m blocks.flatten (Fair m fp slots ts) d d' ∧
      Moved t low (Mmix.slot b distance) (blockStart blocks) c' d' := by
  have hblocks : ∀ i, code[c.index]? = some i →
      ∃ block, blocks[c.index]? = some block ∧ Block t fp distance low high i block := fun i hi => by
    obtain ⟨hlt, -⟩ := List.getElem?_eq_some_iff.mp hi
    have hlen := M.blocks.length_eq
    have hblock : blocks[c.index]? = some blocks[c.index] := getElem?_eq_getElem (by omega)
    exact ⟨_, hblock, rel_getElem?_of_forall₂ M.blocks hi hblock⟩
  obtain ⟨l, hi, rfl⟩ | ⟨o, index, hi, hnext, rfl⟩ := step_cases hstep
  · obtain ⟨block, hblock, hrel⟩ := hblocks _ hi
    cases hrel
    have hcode := getElem?_blockStart hblock (k := 0) (by simp)
    rw [Nat.add_zero, ← h.index, getElem?_cons_zero] at hcode
    refine ⟨hb, _, .snoc .refl (fun o ho => ?_) (step_label hcode), ⟨h.temps, h.mem, h.choices, h.written⟩, ?_, h.kept⟩
    · rw [hcode] at ho; cases ho
    · rw [blockStart_succ hblock, h.index]; rfl
  · have hfair := hfair o hi
    have hmem := mem_of_getElem? hi
    have huses : ∀ u ∈ o.uses, u < low := fun u hu => M.temps _ hmem u (mem_append_left _ hu)
    have hdefs : ∀ u ∈ o.defs, u < low := fun u hu => M.temps _ hmem u (mem_append_right _ hu)
    obtain ⟨block, hblock, hrel⟩ := hblocks _ hi
    obtain ⟨new, before, after, hnew, rfl, hbefore, hafter⟩ := hrel.of_oper
    have hcode : ∀ k i, (before.map Op.instr ++ .oper (o.rename t new) :: after.map Op.instr)[k]? =
        some i → blocks.flatten[d.index + k]? = some i := fun k i hk => by
      rw [h.index, getElem?_blockStart hblock (List.getElem?_eq_some_iff.mp hk).1, hk]
    obtain ⟨d₁, hrun₁, hindex₁, hready₁, hmem₁, hnew₁⟩ := M.before h.toReady hb hnew hbefore
      (fun k op hk => hcode k _ (getElem?_of_append (by simp [hk])))
      (fun huse => h.kept (hfair.written t mem_cons_self huse))
    have hword := fun ht => (hnew₁ ht).1
    obtain ⟨hresults, hchoice, hoff, hon⟩ := hready₁.effect huses hword hfair.avoids
    have hadvance := hready₁.advance huses hdefs hnew hword hfair.avoids
    have hfair₁ := hready₁.fair huses hdefs hnew hnew₁ hfair M.slot M.frame.1 M.moved.2.1.symm
    have hcode₁ : blocks.flatten[d₁.index]? = some (.oper (o.rename t new)) := by
      rw [hindex₁]
      exact hcode _ _ (by simp)
    have hframe : (c.advance o (o.effect m c) index).temps fp = b := hfair.frame.trans hb
    have hkept : ∀ j, t ∉ o.defs → t ∈ (c.advance o (o.effect m c) index).written →
        (d₁.advance (o.rename t new) ((o.rename t new).effect m d₁) j).mem (Mmix.slot b distance) =
          (c.advance o (o.effect m c) index).temps t := fun j hnot hwritten => by
      have hwritten : t ∈ c.written := (mem_append.mp hwritten).resolve_right hnot
      exact ((hon.trans (congrFun hmem₁ _)).trans (h.kept hwritten)).trans (writeAll_of_notMem hnot).symm
    refine ⟨hframe, ?_⟩
    obtain ⟨-, rfl, hnext'⟩ | ⟨hjumps, hnext'⟩ := M.next hnext d₁.index
    · have hstep₁ := step_oper hcode₁ (hchoice.symm ▸ hnext')
      have hcode₂ : ∀ k op, after[k]? = some op → blocks.flatten[d₁.index + 1 + k]? = some op.instr := fun k op hk => by
        rw [hindex₁, Nat.add_assoc, Nat.add_assoc]
        refine hcode _ _ ?_
        rw [getElem?_append_right (by simp)]
        simp [Nat.add_comm 1, hk]
      have hword₂ := fun hdef : t ∈ o.defs =>
        hready₁.writeAll hresults hdefs hnew M.moved.1 (.inl hdef)
      simp only [if_true] at hword₂
      obtain ⟨d₂, hrun₂, hindex₂, hready₂, hkept₂⟩ := M.after (hadvance (c.index + 1) (d₁.index + 1))
        hframe hafter hcode₂ (fun hdef => ⟨hword₂ hdef, mem_append_right _ (new_mem_rename hdef)⟩)
        (hkept _)
      refine ⟨d₂, (hrun₁.trans (.single hcode₁ hfair₁ hstep₁)).trans hrun₂, hready₂, ?_, hkept₂⟩
      rw [hindex₂]
      simp only [Config.advance, hindex₁, h.index, blockStart_succ hblock, length_append,
        length_cons, length_map]
      omega
    · have hnot : o.defs = [] := M.jumps o hmem hjumps
      have hstep₁ := step_oper hcode₁ (hchoice.symm ▸ hnext')
      exact ⟨_, hrun₁.trans (.single hcode₁ hfair₁ hstep₁), hadvance _ _, rfl, hkept _ (by simp [hnot])⟩

/-- Every run of the old code is followed by the new code, from boundary to boundary. -/
theorem Move.run (h : Moved t low (Mmix.slot b distance) (blockStart blocks) c d) (hb : c.temps fp = b)
    (hrun : Runs m code (Fair m fp (Mmix.slot b distance :: slots) (t :: ts)) c c') :
    c'.temps fp = b ∧ ∃ d', Runs m blocks.flatten (Fair m fp slots ts) d d' ∧
      Moved t low (Mmix.slot b distance) (blockStart blocks) c' d' := by
  induction hrun with
  | refl => exact ⟨hb, d, .refl, h⟩
  | snoc _ hok hstep ih =>
    obtain ⟨hb₁, d₁, hrun₁, h₁⟩ := ih
    obtain ⟨hb₂, d₂, hrun₂, h₂⟩ := M.step h₁ hb₁ hok hstep
    exact ⟨hb₂, d₂, hrun₁.trans hrun₂, h₂⟩

end

end

end MmixCompiler
