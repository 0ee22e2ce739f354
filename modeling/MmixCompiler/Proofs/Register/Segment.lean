import MmixCompiler.Proofs.Register.Track

/-! A track in code. Temporaries that are mentioned in one straight stretch of the code only are live
there only, and whatever else is live within the stretch is so all the way. They are therefore a
cluster of the interference graph. -/

namespace MmixCompiler

open Mmix Footprint

/-- Temporaries `own` of the stretch of code that begins at `start` and has this track. Only the last
instruction may jump, and inside nothing else is mentioned but the frame pointer. -/
structure Segment (code : List Instr) (fp : Temp) (start : Nat) (track : List Footprint)
    (own : Temp → Prop) : Prop where
  oper : ∀ k s, track[k]? = some s → ∃ o, code[start + k]? = some (.oper o) ∧
    (k + 1 < track.length → o.jumps = []) ∧
    (∀ t, own t → (t ∈ o.uses ↔ t ∈ s.uses) ∧ (t ∈ o.defs ↔ t ∈ s.defs)) ∧
    (k + 1 < track.length → ∀ t ∈ o.defs, own t) ∧
    (0 < k → k + 1 < track.length → ∀ t ∈ o.uses, t = fp ∨ own t)
  elsewhere : ∀ index i, code[index]? = some i → index < start ∨ start + track.length ≤ index →
    ∀ t, own t → t ∉ i.uses ∧ t ∉ i.defs
  notFp : ¬ own fp
  closed : ∀ t, own t → t ∉ Footprint.live track
  needed : ∀ k s, track[k]? = some s → ∀ t ∈ s.defs, own t → t ∈ Footprint.live (track.drop (k + 1))
  used : ∀ t, own t → ∃ k, t ∈ Footprint.live (track.drop k)

theorem follows_straight {code : List Instr} {index s : Nat} {o : Oper}
    (h : code[index]? = some (.oper o)) (hjumps : o.jumps = []) (hlt : index + 1 < code.length) :
    Follows code index s ↔ s = index + 1 := by
  simp [Follows, h, Instr.jumps, hjumps, hlt]

theorem not_label_of_labelIndex? {code : List Instr} {s : Nat} {o : Oper} {l : Label}
    (h : code[s]? = some (.oper o)) : labelIndex? code l ≠ some s := by
  intro hl
  obtain ⟨hlt, hlabel, -⟩ := List.findIdx?_eq_some_iff_getElem.mp hl
  obtain ⟨_, heq⟩ := List.getElem?_eq_some_iff.mp h
  rw [heq] at hlabel
  simp [Instr.label?] at hlabel

namespace Segment

variable {code : List Instr} {fp : Temp} {start : Nat} {track : List Footprint} {own : Temp → Prop}
  {live : Liveness} {t u v : Temp} {index k : Nat}

theorem lt_of_mem_live (ht : t ∈ Footprint.live (track.drop k)) : k < track.length := by
  by_contra hge
  rw [List.drop_eq_nil_of_le (Nat.le_of_not_lt hge)] at ht
  exact absurd ht List.not_mem_nil

variable (h : Segment code fp start track own)

include h

theorem lt_length (hk : k < track.length) : start + k < code.length := by
  obtain ⟨o, ho, -⟩ := h.oper k _ (List.getElem?_eq_getElem hk)
  exact (List.getElem?_eq_some_iff.mp ho).1

theorem eq_of_follows (hk : k < track.length)
    (hfollows : Follows code index (start + k)) : index + 1 = start + k := by
  obtain ⟨o, ho, -⟩ := h.oper k _ (List.getElem?_eq_getElem hk)
  obtain ⟨i, -, ⟨heq, -⟩ | ⟨l, -, hl⟩⟩ := hfollows
  · exact heq.symm
  · exact absurd hl (not_label_of_labelIndex? ho)

variable (hsolves : live.Solves code)

include hsolves

/-- Own temporaries are live within the stretch only, and only where its track says. -/
theorem mem_live_of_liveIn (hown : own t) (ht : t ∈ live.liveIn index) :
    ∃ k, 0 < k ∧ index = start + k ∧ t ∈ Footprint.live (track.drop k) := by
  refine hsolves.least (fun index t => own t → ∃ k, 0 < k ∧ index = start + k ∧
    t ∈ Footprint.live (track.drop k)) (fun index i hi => ⟨fun t ht hown => ?_, ?_⟩) index t ht hown
  · by_cases hin : start ≤ index ∧ index < start + track.length
    · obtain ⟨k, rfl⟩ := Nat.exists_eq_add_of_le hin.1
      obtain ⟨o, ho, -, hmem, -⟩ := h.oper k _ (List.getElem?_eq_getElem (by omega))
      obtain rfl : .oper o = i := Option.some.inj (ho.symm.trans hi)
      have hlive : t ∈ Footprint.live (track.drop k) := by
        rw [live_drop (List.getElem?_eq_getElem (by omega))]
        exact mem_before.mpr (.inl ((hmem t hown).1.mp ht))
      refine ⟨k, Nat.pos_of_ne_zero fun hzero => ?_, rfl, hlive⟩
      subst hzero
      exact h.closed t hown hlive
    · exact absurd ht (h.elsewhere index i hi (by omega) t hown).1
  · intro s hfollows t hclosed hdefs hown
    obtain ⟨k, hpos, rfl, hlive⟩ := hclosed hown
    have hk := lt_of_mem_live hlive
    have hprev := h.eq_of_follows hk hfollows
    obtain ⟨k, rfl⟩ := Nat.exists_eq_add_of_le hpos
    obtain rfl : index = start + k := by omega
    obtain ⟨o, ho, -, hmem, -⟩ := h.oper k _ (List.getElem?_eq_getElem (by omega))
    obtain rfl : .oper o = i := Option.some.inj (ho.symm.trans hi)
    have hlive' : t ∈ Footprint.live (track.drop k) := by
      rw [live_drop (List.getElem?_eq_getElem (by omega))]
      refine mem_before.mpr (.inr ⟨by rwa [Nat.add_comm], fun hdef => ?_⟩)
      exact hdefs ((hmem t hown).2.mpr hdef)
    refine ⟨k, Nat.pos_of_ne_zero fun hzero => ?_, rfl, hlive'⟩
    subst hzero
    exact h.closed t hown hlive'

theorem liveIn_of_mem_live
    (hown : own t) {k : Nat} (ht : t ∈ Footprint.live (track.drop k)) : t ∈ live.liveIn (start + k) := by
  have hk := lt_of_mem_live ht
  obtain ⟨o, ho, -, hmem, -⟩ := h.oper k _ (List.getElem?_eq_getElem hk)
  rw [live_drop (List.getElem?_eq_getElem hk)] at ht
  refine (hsolves.mem_in _ t).mpr ⟨_, ho, ?_⟩
  rcases mem_before.mp ht with ht | ⟨ht, hdefs⟩
  · exact .inl ((hmem t hown).1.mpr ht)
  · have hlt := lt_of_mem_live ht
    refine .inr ⟨(hsolves.mem_out _ t).mpr ⟨start + (k + 1), ?_, ?_⟩, fun hdef => hdefs ((hmem t hown).2.mp hdef)⟩
    · exact ⟨_, ho, .inl ⟨rfl, h.lt_length hlt⟩⟩
    · exact liveIn_of_mem_live hown ht
termination_by track.length - k

theorem mem_liveOut
    (hk : k + 1 < track.length) : t ∈ live.liveOut (start + k) ↔ t ∈ live.liveIn (start + (k + 1)) := by
  obtain ⟨o, ho, hjumps, -⟩ := h.oper k _ (List.getElem?_eq_getElem (Nat.lt_of_succ_lt hk))
  have hfollows := fun s => follows_straight (s := s) ho (hjumps hk) (h.lt_length hk)
  simp only [hsolves.mem_out, hfollows, exists_eq_left]
  rfl

/-- Whatever else is live within the stretch is live all the way. -/
theorem liveIn_iff (hu : u ≠ fp) (hown : ¬ own u) (hk : 0 < k) (hlt : k < track.length) :
    u ∈ live.liveIn (start + k) ↔ u ∈ live.liveIn (start + 1) := by
  obtain ⟨k, rfl⟩ := Nat.exists_eq_add_of_lt hk
  rw [Nat.zero_add] at hlt ⊢
  clear hk
  induction k with
  | zero => exact Iff.rfl
  | succ k ih =>
    obtain ⟨o, ho, -, -, hdefs, huses⟩ := h.oper (k + 1) _ (List.getElem?_eq_getElem (by omega))
    rw [← ih (by omega), ← h.mem_liveOut hsolves hlt, hsolves.mem_in (start + (k + 1))]
    have hnuses : u ∉ o.uses := fun hmem => (huses (by omega) hlt u hmem).elim hu hown
    have hndefs : u ∉ o.defs := fun hmem => hown (hdefs hlt u hmem)
    simp [ho, Instr.uses, Instr.defs, hnuses, hndefs]

theorem liveOut_own
    (hown : own t) (ht : t ∈ live.liveOut index) : ∃ k, index = start + k ∧ k + 1 < track.length ∧
      t ∈ Footprint.live (track.drop (k + 1)) := by
  obtain ⟨s, hfollows, ht⟩ := (hsolves.mem_out index t).mp ht
  obtain ⟨k, hpos, rfl, hlive⟩ := h.mem_live_of_liveIn hsolves hown ht
  have hk := lt_of_mem_live hlive
  have hprev := h.eq_of_follows hk hfollows
  obtain ⟨k, rfl⟩ := Nat.exists_eq_add_of_le hpos
  exact ⟨k, by omega, by omega, by rwa [Nat.add_comm]⟩

/-- Temporaries interfere with an own one only by being live where it is. -/
theorem exists_of_clash (hv : own v) (hclash : Clash code live v u) : ∃ k, 0 < k ∧ k < track.length ∧
      v ∈ Footprint.live (track.drop k) ∧ u ∈ live.liveIn (start + k) := by
  obtain ⟨index, ⟨hvin, hu⟩ | ⟨hvout, hu⟩ | ⟨i, hi, ⟨hdef, hu⟩ | ⟨hdef, hvout⟩⟩⟩ := hclash
  · obtain ⟨k, hpos, rfl, hlive⟩ := h.mem_live_of_liveIn hsolves hv hvin
    exact ⟨k, hpos, lt_of_mem_live hlive, hlive, hu⟩
  · obtain ⟨k, rfl, hk, hlive⟩ := h.liveOut_own hsolves hv hvout
    exact ⟨k + 1, k.succ_pos, hk, hlive, (h.mem_liveOut hsolves hk).mp hu⟩
  · -- what is written in the stretch is live behind
    have hin : start ≤ index ∧ index < start + track.length := by
      by_contra hout
      exact (h.elsewhere index i hi (by omega) v hv).2 hdef
    obtain ⟨k, rfl⟩ := Nat.exists_eq_add_of_le hin.1
    obtain ⟨o, ho, -, hmem, -⟩ := h.oper k _ (List.getElem?_eq_getElem (by omega))
    obtain rfl : .oper o = i := Option.some.inj (ho.symm.trans hi)
    have hlive := h.needed k _ (List.getElem?_eq_getElem (by omega)) v ((hmem v hv).2.mp hdef) hv
    have hk := lt_of_mem_live hlive
    exact ⟨k + 1, k.succ_pos, hk, hlive, (h.mem_liveOut hsolves hk).mp hu⟩
  · obtain ⟨k, rfl, hk, hlive⟩ := h.liveOut_own hsolves hv hvout
    obtain ⟨o, ho, -, hmem, hdefs, -⟩ := h.oper k _ (List.getElem?_eq_getElem (by omega))
    obtain rfl : .oper o = i := Option.some.inj (ho.symm.trans hi)
    have hu : own u := hdefs hk u hdef
    have hulive := h.needed k _ (List.getElem?_eq_getElem (by omega)) u ((hmem u hu).2.mp hdef) hu
    exact ⟨k + 1, k.succ_pos, hk, hlive, h.liveIn_of_mem_live hsolves hu hulive⟩

/-- The neighbours of an own temporary: all that is live throughout, and the own ones it meets. -/
theorem mem_neighbours (hv : own v) : u ∈ (Interference.ofCode code live fp).neighbours v ↔
      (u ≠ fp ∧ ¬ own u ∧ u ∈ live.liveIn (start + 1)) ∨
      (own u ∧ v ≠ u ∧ ∃ k, v ∈ Footprint.live (track.drop k) ∧ u ∈ Footprint.live (track.drop k)) := by
  have hvfp : v ≠ fp := fun heq => h.notFp (heq ▸ hv)
  have hpos : ∀ {k}, v ∈ Footprint.live (track.drop k) → 0 < k := fun {k} hlive =>
    Nat.pos_of_ne_zero fun hzero => h.closed v hv (by subst hzero; exact hlive)
  rw [Interference.mem_neighbours_iff_clash]
  constructor
  · rintro ⟨hne, -, hufp, hclash⟩
    obtain ⟨k, hk, hlt, hlive, hu⟩ := h.exists_of_clash hsolves hv hclash
    by_cases hown : own u
    · obtain ⟨k', -, heq, hulive⟩ := h.mem_live_of_liveIn hsolves hown hu
      obtain rfl : k = k' := by omega
      exact .inr ⟨hown, hne, k, hlive, hulive⟩
    · exact .inl ⟨hufp, hown, (h.liveIn_iff hsolves hufp hown hk hlt).mp hu⟩
  · rintro (⟨hufp, hown, hu⟩ | ⟨hown, hne, k, hlive, hulive⟩)
    · obtain ⟨k, hlive⟩ := h.used v hv
      refine ⟨fun heq => hown (heq ▸ hv), hvfp, hufp, start + k, .inl ⟨?_, ?_⟩⟩
      · exact h.liveIn_of_mem_live hsolves hv hlive
      · exact (h.liveIn_iff hsolves hufp hown (hpos hlive) (lt_of_mem_live hlive)).mpr hu
    · refine ⟨hne, hvfp, fun heq => h.notFp (heq ▸ hown), start + k, .inl ⟨?_, ?_⟩⟩
      · exact h.liveIn_of_mem_live hsolves hv hlive
      · exact h.liveIn_of_mem_live hsolves hown hulive

end Segment
end MmixCompiler
