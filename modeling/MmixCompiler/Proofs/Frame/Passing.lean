import MmixCompiler.Proofs.Frame.Outgoing
import MmixCompiler.Proofs.Frame.Regions
import MmixCompiler.Proofs.Ir.StaticLink

/-! Passing arguments. A call stores the static link and its arguments at the stack pointer, where the function that it
calls has its parameters. -/

namespace MmixCompiler

open Ir Mmix Fresh

/-- How a call made from a supply passes its arguments: each is computed into a temporary, in order, and the
temporaries are stored in the given regions at the stack pointer before control goes to the function. -/
def PassesIn (label : Label) (args : List Ir.Expr) (regions : List Region) (s : Supply) : Prop :=
  ∃ parts s', Threaded (fun e s part s' => Gives (intoTemp e e.flatten) s part s') args s parts s' ∧
    Gives (Ir.Expr.call label args).flatten s
      (parts.flatMap Prod.fst, .call label (parts.map fun part => .temp part.2)) s' ∧
    ∀ kept dst s₁, s'.temps ≤ s₁.temps → ∃ stores s₂,
      Gives ((Ir.Expr.call label (parts.map fun part => .temp part.2)).select kept dst) s₁
        (stores ++ [.call kept label, .load (.temp dst) .sp (.imm 0)]) s₂ ∧
      ∀ w c, ∃ c', execAll w stores c = some c' ∧ c'.regs .sp = c.regs .sp ∧
        List.Forall₂ (fun part g => c'.mem (g.first (c.regs .sp)) = c.regs (.temp part.2)) parts regions

section
variable {label : Label} {args : List Ir.Expr} {s s' : Supply}

theorem threaded_of_flattenArgs {code : List Ir.Stmt} {ts : List Temp}
    (h : Gives (Ir.Expr.flattenArgs args) s (code, ts) s') :
    ∃ parts, Threaded (fun e s part s' => Gives (intoTemp e e.flatten) s part s') args s parts s' ∧
      code = parts.flatMap Prod.fst ∧ ts = parts.map Prod.snd := by
  induction args generalizing s code ts with
  | nil =>
    obtain ⟨heq, rfl⟩ := gives_pure.mp h
    cases heq
    exact ⟨[], .nil s, rfl, rfl⟩
  | cons e args ih =>
    simp only [Ir.Expr.flattenArgs, gives_bind, gives_pure] at h
    obtain ⟨⟨first, t⟩, s₁, hfirst, ⟨rest, ts'⟩, s₂, hrest, heq, rfl⟩ := h
    cases heq
    obtain ⟨parts, hparts, rfl, rfl⟩ := ih hrest
    exact ⟨(first, t) :: parts, .cons hfirst hparts, rfl, rfl⟩

theorem Region.link_cons_params (n : Nat) :
    link :: params n = (List.range (n + 1)).map fun k : Nat => word (Word.size * k) := by
  simp [params, link, List.range_succ_eq_map, Function.comp_def]

theorem Region.first_word_eq_argCell (sp : Octa) (i : Nat) : (word (Word.size * i)).first sp = argCell sp i := by
  rw [first, offset_word, argCell, Nat.mul_comm, ← BitVec.ofInt_natCast, Int.natCast_mul]
  rfl

theorem passesIn_words (hargs : Ir.Expr.StructuredAll args) (htemps : ∀ t ∈ Ir.Expr.tempsAll args, t < s.temps)
    (hlength : args.length ≤ 2 ^ 61) :
    PassesIn label args ((List.range args.length).map fun k : Nat => .word (Word.size * k)) s := by
  obtain ⟨⟨code, ts⟩, s', hflatten⟩ :=
    (Ir.Expr.decidesArgs args s).exists_gives (.of_stays (Ir.Expr.StructuredAll.stays args hargs))
  obtain ⟨hflat, hknown⟩ := (Ir.Expr.flattensArgs args hflatten).flat
  simp only [List.forall_mem_map, Ir.operates_temp] at hknown
  obtain ⟨parts, hparts, rfl, rfl⟩ := threaded_of_flattenArgs hflatten
  have hcount : parts.length = args.length := hparts.related.length_eq.symm
  have htemp : parts.map (fun part => Ir.Expr.temp part.2) = (parts.map Prod.snd).map .temp := by rw [List.map_map]; rfl
  have hbelow : ∀ t ∈ parts.map Prod.snd, t < s'.temps := fun t ht =>
    (hknown t ht).elim (fun hmem => Nat.lt_of_lt_of_le (htemps t hmem) hflat.supply) fun hfresh => hfresh.2
  refine ⟨parts, s', hparts, ?_, fun kept dst s₁ hs₁ => ?_⟩
  · simp only [Ir.Expr.flatten, gives_bind, gives_pure]
    exact ⟨_, s', hflatten, by rw [htemp], rfl⟩
  rw [htemp]
  obtain ⟨stores, s₂, hstores⟩ := exists_storeArgs (parts.map Prod.snd) 0 s₁
  refine ⟨stores, s₂, ?_, fun w c => ?_⟩
  · simp only [Ir.Expr.select, gives_bind, gives_pure]
    exact ⟨stores, s₂, hstores, rfl, rfl⟩
  have hmatches : Matches s'.temps (c.regs .sp) args.length ⟨fun t => c.regs (.temp t), c.mem, []⟩ c :=
    ⟨fun _ _ => rfl, rfl, fun _ _ => rfl⟩
  obtain ⟨c', hexec, hmatches', -, hwords⟩ := execAll_storeArgs (w := w) hstores hbelow hs₁
    (by simp [hcount]) hlength hmatches
  refine ⟨c', hexec, hmatches'.stack, List.forall₂_iff_get.mpr ⟨by simp [hcount], fun i hi hi' => ?_⟩⟩
  have hword := hwords i (parts.get ⟨i, hi⟩).2 (by simp [hi])
  rw [Nat.zero_add] at hword
  simpa [Region.first_word_eq_argCell] using hword

end

/-- A call in a function `f` passes its arguments in the words where the function that it calls has its parameters. The
code of the call has the static link first, and then that of the arguments, in order. -/
def Lowering.Passes (x : Lowering) (f : Decl) (mark : Mark) (args : List MmixCompiler.Expr) : Prop :=
  ∃ g d callee link cs, x.planner.layout.frames[f.id]? = some g ∧ x.analysis.bindings[mark.id]? = some d ∧
    x.planner.layout.frames[d.id]? = some callee ∧
    x.generator.code.exprs[mark.id]? = some (.call callee.label (link :: cs)) ∧
    Coded x.analysis x.planner.layout x.generator.code x.generator.supply.labels g (.values args cs) ∧
    List.Forall₂ (x.planner.layout.Puts callee.depth) d.params (Region.params args.length) ∧
    ∀ s, g.fp < s.temps → PassesIn callee.label (link :: cs) (.link :: Region.params args.length) s

section
variable {x : Lowering} {src : String} {f : Decl} {φ : List Decl} {mark : Mark} {name : String}
  {args : List MmixCompiler.Expr}

/-- The area for arguments has room for those of each call of the function, so that there are not too many. -/
theorem Lowering.Of.call_fits (h : x.Of src) {g : Frame} (hg : x.planner.layout.frames[f.id]? = some g)
    (hcall : (f :: φ, .expr (.call mark name args)) ∈ x.program.nests) :
    Word.size * (args.length + 1 : Nat) ≤ g.args ∧ g.args ≤ Word.greatest := by
  have hinert : ¬(Node.expr (.call mark name args)).Inert := not_exists.mpr fun _ hconstant => by cases hconstant
  have hown : .enter (.expr (.call mark name args)) ∈ f.ownWalk := by
    rcases h.analyzed.own_of_nest hcall hinert with ⟨v, -, heq⟩ | hown
    · cases heq
    · exact hown
  obtain ⟨hf, -⟩ := Program.mem_nests_head hcall
  obtain ⟨ψ, f', hid, hrecords⟩ := (h.analyzed.planned h.layout).frames _ _ hg
  obtain ⟨-, rfl⟩ := h.formed.numbered.nest_unique hf hrecords.nest hid.symm
  constructor
  · cases f with
    | typed | proto => cases hown
    | function fmark fname params result body =>
      have hbody : (_, body) ∈ x.program.bodies := Program.mem_bodies.mpr ⟨hrecords.code.has, rfl⟩
      obtain ⟨c, -, s, s', hmakes⟩ := exists_right_of_forall₂ h.threaded.related hbody
      obtain rfl : c.frame = g := Option.some.inj (hmakes.frame.symm.trans hg)
      have harea : c.frame.args = Word.size * (largest (Node.expr body).arities : Nat) := hmakes.args_eq h hbody
      have harity : args.length + 1 ∈ (Node.expr body).arities := List.mem_filterMap.mpr ⟨_, mem_entered.mpr hown, rfl⟩
      have hle := le_largest harity
      rw [harea, Word.size]
      omega
  · obtain ⟨gs, -, htiles, -⟩ := hrecords.locals h.analyzed
    obtain ⟨_, _, _, hframes, -⟩ := hrecords.frame
    obtain ⟨n, hn⟩ := Option.isSome_iff_exists.mp hframes.small.1
    obtain ⟨hfits, -⟩ := Word.checked_eq_some_iff.mp hn
    have hle := htiles.le
    have hmost := hfits.2
    omega

theorem Lowering.Of.params_of_call (h : x.Of src) (hcall : (f :: φ, .expr (.call mark name args)) ∈ x.program.nests)
    {d : Decl} (hd : x.analysis.bindings[mark.id]? = some d) {callee : Frame}
    (hcallee : x.planner.layout.frames[d.id]? = some callee) :
    List.Forall₂ (x.planner.layout.Puts callee.depth) d.params (Region.params args.length) := by
  obtain ⟨d₁, n, hd₁, -, -, -, -, hcode⟩ := h.made.exists_binding hcall rfl
  obtain rfl : d = d₁ := Option.some.inj (hd.symm.trans hd₁)
  obtain ⟨ψ, d₂, hid, hrecords⟩ := (h.analyzed.planned h.layout).frames _ _ hcallee
  obtain rfl : d₂ = d := Node.decl.inj (h.formed.numbered.eq_of_id hrecords.code.has hcode.has hid)
  obtain ⟨d₃, params, result, hd₃, hsignature, hholds⟩ := h.formed.exists_params h.analyze
    (h.made.inCode_of_nests hcall (not_exists.mpr fun _ hconstant => by cases hconstant))
  obtain rfl : d₂ = d₃ := Option.some.inj (hd.symm.trans hd₃)
  have hlength : d₂.params.length = args.length := by
    rw [← hholds.length_eq]
    cases d₂ with
    | typed => cases hsignature
    | proto | function =>
      cases hsignature
      rfl
  exact hlength ▸ hrecords.params h.analyzed

theorem Lowering.Of.passes (h : x.Of src) (hcall : (f :: φ, .expr (.call mark name args)) ∈ x.program.nests) :
    x.Passes f mark args := by
  obtain ⟨g, hg, -, code, hcoded | hcoded⟩ := h.made.exists_covered hcall rfl
  · have hformed := hcoded.formed (h.analyzed.plain_layout h.laidOut)
    cases hcoded with
    | load hcoded => cases hcoded
    | @call _ _ _ _ d callee link cs hd hcallee hlink hargs hnoted =>
      refine ⟨g, d, callee, link, cs, hg, hd, hcallee, hnoted.2, hargs, h.params_of_call hcall hd hcallee,
        fun s hs => ?_⟩
      have hlength := hargs.length_values
      have hfits := h.call_fits hg hcall
      rw [Region.link_cons_params, ← hlength]
      refine passesIn_words hformed.1 (fun t ht => ?_) ?_
      · rw [hformed.2.temps t ht]
        exact hs
      · rw [List.length_cons, hlength]
        unfold Word.size Word.greatest at hfits
        omega
  · cases hcoded

end

end MmixCompiler
