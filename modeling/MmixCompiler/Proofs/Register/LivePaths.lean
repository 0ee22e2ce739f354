import Mathlib.Data.Set.Lattice
import MmixCompiler.Proofs.Register.Liveness

/-! Liveness is exact. A temporary is live before an instruction if and only if some path leads from there to one
that reads it, with no instruction before that one which writes it. These sets are also the least solution of the
equations that the rounds aim at. -/

namespace MmixCompiler

open Mmix List

/-- Control may go from a place to the next one, and to those with a label that the instruction jumps to. -/
def Succeeds (code : List Instr) (i s : Nat) : Prop :=
  ∃ x, code[i]? = some x ∧ (s = i + 1 ∧ s < code.length ∨ ∃ l ∈ x.jumps, code[s]? = some (.label l))

/-- A path to an instruction that reads a temporary, which none before it writes. -/
structure ReadPath (code : List Instr) (t : Temp) (path : List Nat) : Prop where
  chain : path.IsChain (Succeeds code)
  read : ∃ i ∈ path.getLast?, ∃ x ∈ code[i]?, t ∈ x.uses
  unwritten : ∀ i ∈ path.dropLast, ∀ x ∈ code[i]?, t ∉ x.defs

/-- Sets of temporaries before and after every instruction that satisfy the equations of liveness. -/
def FlowSolution (code : List Instr) (f : (Nat → Set Temp) × (Nat → Set Temp)) : Prop :=
  ∀ i x, code[i]? = some x → f.1 i = {t | t ∈ x.uses} ∪ (f.2 i \ {t | t ∈ x.defs}) ∧
    f.2 i = ⋃ s ∈ {s | Succeeds code i s}, f.1 s

def Liveness.sets (live : Liveness) : (Nat → Set Temp) × (Nat → Set Temp) :=
  (fun i => {t | t ∈ live.liveIn i}, fun i => {t | t ∈ live.liveOut i})

/-- What is live before and after every instruction, by paths and by equations. -/
structure Liveness.Exact (code : List Instr) (live : Liveness) : Prop where
  insSize : live.ins.size = code.length
  outsSize : live.outs.size = code.length
  ins : ∀ i t, t ∈ live.liveIn i ↔ ∃ path, path.head? = some i ∧ ReadPath code t path
  outs : ∀ i t, t ∈ live.liveOut i ↔ ∃ s, Succeeds code i s ∧ t ∈ live.liveIn s
  least : IsLeast {f | FlowSolution code f} live.sets

section
variable {code : List Instr} {t : Temp} {i s : Nat} {l : Label} {path : List Nat}

theorem count_labels (code : List Instr) (l : Label) :
    (code.filterMap Instr.label?).count l = code.count (.label l) := by
  induction code with
  | nil => rfl
  | cons x code ih =>
    cases x with
    | label k =>
      rw [filterMap_cons_some (show (Instr.label k).label? = some k from rfl), count_cons,
        count_cons, ih]
      simp
    | oper o => rw [filterMap_cons_none rfl, count_cons_of_ne (by simp), ih]

theorem label?_eq_some {x : Instr} : x.label? = some l ↔ x = .label l := by
  cases x <;> simp [Instr.label?]

theorem exists_labelIndex?_iff : (∃ s, labelIndex? code l = some s) ↔ .label l ∈ code := by
  rw [← Option.isSome_iff_exists, labelIndex?, findIdx?_isSome, any_eq_true]
  simp [label?_eq_some]

theorem labelled_iff : Labelled code ↔
    ¬ ((∃ l, 2 ≤ code.count (.label l)) ∨ ∃ x ∈ code, ∃ l ∈ x.jumps, .label l ∉ code) := by
  have hnodup : (code.filterMap Instr.label?).Nodup ↔ ∀ l, code.count (.label l) < 2 := by
    simp only [nodup_iff_count_le_one, count_labels, Nat.lt_succ_iff]
  push Not
  constructor
  · intro h
    exact ⟨hnodup.mp h.nodup, fun x hx l hl => exists_labelIndex?_iff.mp (h.defined x hx l hl)⟩
  · rintro ⟨honce, hdefined⟩
    exact ⟨hnodup.mpr honce, fun x hx l hl => exists_labelIndex?_iff.mpr (hdefined x hx l hl)⟩

theorem Labelled.labelIndex?_eq_some (h : Labelled code) :
    labelIndex? code l = some s ↔ code[s]? = some (.label l) := by
  have hfound : ∀ s, labelIndex? code l = some s → code[s]? = some (.label l) := by
    intro s hs
    obtain ⟨hlt, hlabel, -⟩ := findIdx?_eq_some_iff_getElem.mp hs
    rw [getElem?_eq_getElem hlt, label?_eq_some.mp (of_decide_eq_true hlabel)]
  refine ⟨hfound s, fun hs => ?_⟩
  obtain ⟨s', hs'⟩ := exists_labelIndex?_iff.mpr (mem_of_getElem? hs)
  have hlabel := hfound s' hs'
  have hapart : code.Pairwise fun x y => x = .label l → y ≠ .label l := by
    refine (pairwise_filterMap.mp h.nodup).imp fun {x y} hne hx hy => ?_
    exact hne l (label?_eq_some.mpr hx) l (label?_eq_some.mpr hy) rfl
  obtain ⟨hlt, hat⟩ := List.getElem?_eq_some_iff.mp hs
  obtain ⟨hlt', hat'⟩ := List.getElem?_eq_some_iff.mp hlabel
  rcases Nat.lt_trichotomy s s' with hless | rfl | hless
  · exact absurd hat' (pairwise_iff_getElem.mp hapart s s' hlt hlt' hless hat)
  · exact hs'
  · exact absurd hat (pairwise_iff_getElem.mp hapart s' s hlt' hlt hless hat')

theorem Labelled.follows_iff (h : Labelled code) : Follows code i s ↔ Succeeds code i s := by
  simp only [Follows, Succeeds, h.labelIndex?_eq_some]
  grind

theorem ReadPath.single {x : Instr} (hx : code[i]? = some x) (ht : t ∈ x.uses) : ReadPath code t [i] :=
  ⟨.singleton i, ⟨i, rfl, x, hx, ht⟩, by simp⟩

theorem ReadPath.cons {x : Instr} (h : ReadPath code t path) (hhead : path.head? = some s) (hs : Succeeds code i s)
    (hx : code[i]? = some x) (ht : t ∉ x.defs) : ReadPath code t (i :: path) := by
  obtain ⟨rest, rfl⟩ := head?_eq_some_iff.mp hhead
  refine ⟨.cons_cons hs h.chain, h.read, fun j hj y hy => ?_⟩
  rcases mem_cons.mp hj with rfl | hj
  · cases hx.symm.trans hy
    exact ht
  · exact h.unwritten j hj y hy

end

namespace Liveness.Solves

variable {code : List Instr} {live : Liveness} (h : live.Solves code)
include h

section

variable (hlabelled : Labelled code)

include hlabelled

/-- What is live is read on some path. -/
theorem exists_path {i : Nat} {t : Temp} (ht : t ∈ live.liveIn i) :
    ∃ path, path.head? = some i ∧ ReadPath code t path := by
  refine h.least (fun i t => ∃ path, path.head? = some i ∧ ReadPath code t path)
    (fun i x hx => ⟨fun t ht => ?_, ?_⟩) i t ht
  · exact ⟨[i], rfl, .single hx ht⟩
  · rintro s hs t ⟨path, hhead, hpath⟩ hdef
    exact ⟨i :: path, rfl, hpath.cons hhead (hlabelled.follows_iff.mp hs) hx hdef⟩

/-- What is read on some path is live at its beginning. -/
theorem mem_of_path {t : Temp} {path : List Nat} (hpath : ReadPath code t path) {i : Nat}
    (hhead : path.head? = some i) : t ∈ live.liveIn i := by
  -- along the path, from its end
  induction path generalizing i with
  | nil => cases hhead
  | cons i rest ih =>
    cases hhead
    obtain ⟨last, hlast, x, hx, ht⟩ := hpath.read
    cases rest with
    | nil =>
      cases hlast
      exact (h.mem_in i t).mpr ⟨x, hx, .inl ht⟩
    | cons s rest =>
      obtain ⟨hs, hchain⟩ := isChain_cons_cons.mp hpath.chain
      have hrest : ReadPath code t (s :: rest) :=
        ⟨hchain, ⟨last, hlast, x, hx, ht⟩, fun k hk => hpath.unwritten k (mem_cons_of_mem _ hk)⟩
      obtain ⟨y, hy, -⟩ := id hs
      have hout : t ∈ live.liveOut i := (h.mem_out i t).mpr ⟨s, hlabelled.follows_iff.mpr hs, ih hrest rfl⟩
      exact (h.mem_in i t).mpr ⟨y, hy, .inr ⟨hout, hpath.unwritten i mem_cons_self y hy⟩⟩

theorem flowSolution : FlowSolution code live.sets := by
  refine fun i x hx => ⟨Set.ext fun t => ?_, Set.ext fun t => ?_⟩
  · simp [Liveness.sets, h.mem_in i t, hx]
  · simp [Liveness.sets, h.mem_out i t, hlabelled.follows_iff]

theorem sets_le {f : (Nat → Set Temp) × (Nat → Set Temp)} (hf : FlowSolution code f) : live.sets ≤ f := by
  have hin : ∀ i t, t ∈ live.liveIn i → t ∈ f.1 i := by
    refine h.least (fun i t => t ∈ f.1 i) fun i x hx => ?_
    obtain ⟨hin, hout⟩ := hf i x hx
    refine ⟨fun t ht => hin ▸ .inl ht, fun s hs t ht hdef => hin ▸ .inr ⟨?_, hdef⟩⟩
    rw [hout]
    exact Set.mem_biUnion (hlabelled.follows_iff.mp hs) ht
  refine ⟨hin, fun i t ht => ?_⟩
  obtain ⟨s, hs, ht⟩ := (h.mem_out i t).mp ht
  obtain ⟨x, hx, -⟩ := id hs
  rw [(hf i x hx).2]
  exact Set.mem_biUnion (hlabelled.follows_iff.mp hs) (hin s t ht)

theorem exact : live.Exact code where
  insSize := h.insSize
  outsSize := h.outsSize
  ins _ _ := ⟨h.exists_path hlabelled, fun ⟨_, hhead, hpath⟩ => h.mem_of_path hlabelled hpath hhead⟩
  outs i t := by simp only [h.mem_out i t, hlabelled.follows_iff]
  least := ⟨h.flowSolution hlabelled, fun _ hf => h.sets_le hlabelled hf⟩

end

end Liveness.Solves

/-- Finding liveness fails exactly if a label stands twice or one that is jumped to is missing. Otherwise the rounds
end with the first that leaves every set as large as it was, and the sets are then exact. -/
theorem liveness_exact (code : List Instr) : ((∃ e, liveness code = .error e) ↔
      (∃ l, 2 ≤ code.count (.label l)) ∨ ∃ x ∈ code, ∃ l ∈ x.jumps, .label l ∉ code) ∧
    ∀ live rounds, liveness code = .ok (live, rounds) → live.Exact code ∧
      ∃ nexts n, successors code = .ok nexts ∧
        (∀ i next, nexts[i]? = some next → ∀ s, s ∈ next ↔ Succeeds code i s) ∧
        Liveness.Settles (code.zip nexts).zipIdx (.empty code.length) n ∧
        live = (Liveness.sweep (code.zip nexts).zipIdx)^[n + 1] (.empty code.length) ∧ rounds = n + 1 := by
  constructor
  · rw [← not_iff_not, ← labelled_iff]
    constructor
    · intro hok
      cases h : liveness code with
      | error e => exact absurd ⟨e, h⟩ hok
      | ok p => exact (liveness_solves h).1
    · rintro hlabelled ⟨e, he⟩
      obtain ⟨live, rounds, hlive⟩ := hlabelled.exists_liveness
      cases he.symm.trans hlive
  · intro live rounds h
    obtain ⟨hlabelled, hsolves⟩ := liveness_solves h
    obtain ⟨nexts, n, hnexts, hsettles, hlive, hrounds⟩ := liveness_settles h
    refine ⟨hsolves.exact hlabelled, nexts, n, hnexts, fun i next hnext s => ?_, hsettles, hlive, hrounds⟩
    rw [(labelled_of_successors hnexts).2.2 i next hnext s, hlabelled.follows_iff]

/-- A loop that adds up the numbers from nine downwards. -/
def additionLoop : List Instr :=
  [.oper ⟨"SETL `d0,9", [], [2], []⟩, .oper ⟨"SETL `d0,0", [], [3], []⟩, .label (.fresh 2),
    .oper ⟨"ADD `d0,`s0,`s1", [3, 2], [3], []⟩, .oper ⟨"SUB `d0,`s0,1", [2], [2], []⟩,
    .oper ⟨"BNZ `s0,L2", [2], [], [.fresh 3, .fresh 2]⟩, .label (.fresh 3), .oper ⟨"STO `s0,`s1,0", [3, 0], [], []⟩]

/-- What the loop adds is live after the branch, since it leads back. -/
theorem additionLoop_live : ∃ live rounds, liveness additionLoop = .ok (live, rounds) ∧ 2 ∈ live.liveOut 5 ∧
    ∃ path, path.head? = some 5 ∧ ReadPath additionLoop 3 path := by
  have h : ((liveness additionLoop).toOption.any fun p => 2 ∈ p.1.liveOut 5 ∧ 3 ∈ p.1.liveIn 5) = true := by
    decide +kernel
  cases hlive : liveness additionLoop with
  | error e =>
    rw [hlive] at h
    cases h
  | ok p =>
    rw [hlive] at h
    obtain ⟨hout, hin⟩ := of_decide_eq_true h
    exact ⟨p.1, p.2, rfl, hout, (((liveness_exact additionLoop).2 p.1 p.2 hlive).1.ins 5 3).mp hin⟩

end MmixCompiler
