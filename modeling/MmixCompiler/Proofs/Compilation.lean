import MmixCompiler.Compilation
import MmixCompiler.Proofs.Mmix.Routines
import MmixCompiler.Proofs.Tree.Bodies

/-! Compilation as a whole. A program that passes analysis and whose frames are not too large has a listing; so
every error is one of the source text, and no phase is given what it cannot handle. -/

namespace MmixCompiler

open Compile

/-- What the phases of a compilation hand on. -/
structure Stages where
  program : Program
  analysis : Analysis
  planner : Planner
  generator : Generator
  chunks : Chunks
  supply : Supply
  routines : List Routine.Allocated

/-- The routine of a chunk, with registers. -/
def CodeChunk.Becomes (registers : Nat) (c : CodeChunk) (a : Routine.Allocated) : Prop :=
  ∃ s r s₁ s₂, Gives (c.select registers) s r s₁ ∧ Gives (r.allocate registers) s₁ a s₂

/-- The stages of a compilation, each made from those before it. -/
structure Stages.Of (x : Stages) (src : String) (registers : Nat) (c : Compilation) : Prop where
  parse : (Program.parse src).1 = .ok x.program
  analyze : x.program.analyze = .ok x.analysis
  layout : x.program.layout x.analysis {} = (.ok (), x.planner)
  code : x.program.code x.analysis x.planner.layout x.planner.supply = (.ok (), x.generator)
  chunks : x.program.chunks x.planner.layout x.generator.code x.generator.supply = .ok (x.chunks, x.supply)
  routines : List.Forall₂ (CodeChunk.Becomes registers) x.chunks.code x.routines
  report : x.program.report x.analysis x.planner.layout x.generator.code x.chunks x.routines = .ok c.report
  listing : listing registers x.chunks.data (x.routines.map (·.routine)) = .ok c.listing

/-- How a compilation may fail: the text cannot be parsed, the program has no meaning, or a frame is too large. -/
inductive Fails (src : String) : CompileError → Prop where
  | parse {f : ParseError} (h : (Program.parse src).1 = .error f) : Fails src (.parse f)
  | analyze {p : Program} {f : SemanticError} (hp : (Program.parse src).1 = .ok p) (h : p.analyze = .error f) :
      Fails src (.semantic f)
  | layout {p : Program} {a : Analysis} {planner : Planner} {e : CompileError} (hp : (Program.parse src).1 = .ok p)
      (ha : p.analyze = .ok a) (hlarge : e.TooLarge) (h : p.layout a {} = (.error e, planner)) : Fails src e

section
variable {src : String} {p : Program} {a : Analysis} {l : Layout} {c : Code} {s s' : Supply} {es : List Event}
  {registers : Nat} {fault : CompileError → Prop}

theorem meets_parse : Meets (Compile.parse src) es (fun p _ => (Program.parse src).1 = .ok p) (Fails src) := by
  simp only [Compile.parse, tellAll, Compile.tell, meets_bind, meets_modify, meets_liftM, meets_pure]
  cases h : (Program.parse src).1 with
  | ok p => exact rfl
  | error f => exact .parse h

theorem meets_semantic {α : Type} {r : Except SemanticError α} {post : α → List Event → Prop} :
    Meets (semantic r) es post fault ↔ Results r (post · es) fun f => fault (.semantic f) := by
  rw [semantic, meets_liftM]
  cases r <;> rfl

theorem meets_analyze {post : Analysis → Prop} :
    Meets (Compile.analyze p) es (fun a _ => post a) fault ↔ Results p.analyze post fun f => fault (.semantic f) := by
  simp only [Compile.analyze, Compile.tell, meets_bind, meets_modify, meets_semantic, meets_pure,
    Program.analyze, Program.typing, results_bind, StateT.run_bind, results_pure]

theorem meets_analyze_of_parse (hp : (Program.parse src).1 = .ok p) :
    Meets (Compile.analyze p) es (fun a _ => p.analyze = .ok a) (Fails src) := by
  apply meets_analyze.mpr
  cases h : p.analyze with
  | ok a => exact rfl
  | error f => exact .analyze hp h

theorem meets_layout (hp : (Program.parse src).1 = .ok p) (ha : p.analyze = .ok a) : Meets (Compile.layout p a) es
    (fun x _ => ∃ planner, p.layout a {} = (.ok (), planner) ∧ x = (planner.layout, planner.supply)) (Fails src) := by
  have hplan := ((Program.formed_parse hp).analyzed ha).meets_plan
  simp only [Compile.layout, tellAll, meets_bind, meets_modify, meets_liftM, meets_pure]
  rcases hlayout : p.layout a {} with ⟨e | ⟨⟨⟩⟩, planner⟩
  · have houtcome : outcome (p.plan a) { supply := {} } = (.error e, planner) := hlayout
    rw [Meets, houtcome] at hplan
    exact .layout hp ha hplan hlayout
  · exact ⟨planner, rfl, rfl⟩

theorem meets_code (h : p.Analyzed a) (hl : p.LaidOut l s) : Meets (Compile.code p a l s) es
    (fun x _ => ∃ g, p.code a l s = (.ok (), g) ∧ x = (g.code, g.supply) ∧ p.Made a l g.code g.supply)
    fault := by
  obtain ⟨⟨⟩, g, hg, htemps, hcoded⟩ := (h.meets_code hl).exists_gives
  have hcode : p.code a l s = (.ok (), g) := hg
  simp only [Compile.code, tellAll, meets_bind, meets_modify, meets_liftM, meets_pure, hcode, results_ok]
  exact ⟨g, rfl, rfl, h, hl.mono (Nat.le_of_eq htemps.symm), hcoded⟩

theorem meets_chunks (h : p.Made a l c s) : Meets (Compile.chunks p l c s) es (fun x _ => p.chunks l c s = .ok x ∧
      List.Forall₂ (fun d chunk => l.frames[d.1.id]? = some chunk.frame ∧ chunk.Fit x.2) p.bodies x.1.code)
    fault := by
  obtain ⟨data, hdata⟩ := h.exists_data
  obtain ⟨code, s', hcode, -, hfit⟩ := h.meets_chunkCode.exists_gives
  have hchunks : p.chunks l c s = .ok (⟨data, code⟩, s') := by
    have hrun : (p.chunkCode l c).run.run s = (.ok code, s') := hcode
    rw [Program.chunks, hdata]
    simp only [hrun]
    rfl
  simp only [Compile.chunks, Compile.tell, tellAll, meets_bind, meets_modify, meets_liftM, meets_pure,
    hchunks, results_ok]
  exact ⟨trivial, hfit⟩

theorem meets_fresh {α : Type} {f : Fresh α} {post : α × Supply → List Event → Prop} {x : α} (hf : Gives f s x s')
    (hpost : post (x, s') es) : Meets (Compile.fresh f s) es post fault := by
  have hrun : f.run.run s = (.ok x, s') := hf
  simp only [Compile.fresh, hrun, meets_pure]
  exact hpost

theorem meets_routines (hregisters : 2 ≤ registers) {cs : List CodeChunk}
    (hcs : ∀ c ∈ cs, c.Fit s ∧ 0 ≤ c.frame.locals) : Meets (Compile.routines registers cs s) es
    (fun as _ => List.Forall₂ (CodeChunk.Becomes registers) cs as ∧ ∀ a ∈ as, ∃ regs, a.Complete regs)
    fault := by
  induction cs generalizing s es with
  | nil => exact ⟨.nil, by simp⟩
  | cons c cs ih =>
    obtain ⟨hfit, hlocals⟩ := hcs c List.mem_cons_self
    obtain ⟨r, s₁, hselect, hr, hframe, hspilled, hle⟩ := hfit.exists_routine registers
    have hslot : 0 ≤ r.lastSlot := by
      rw [Routine.lastSlot, hframe, hspilled, Frame.overhead, Word.size]
      omega
    obtain ⟨a, s₂, ha⟩ := Routine.exists_allocate hregisters hr.labelled hslot hr.below hr.plain
    obtain ⟨hle', -, hcomplete⟩ := hr.complete ha
    rw [Compile.routines, meets_bind]
    refine meets_fresh hselect ?_
    simp only [Compile.tell, tellAll, meets_bind, meets_modify]
    refine meets_fresh ha ?_
    have hrest : ∀ c ∈ cs, c.Fit s₂ ∧ 0 ≤ c.frame.locals := fun c hc => by
      obtain ⟨hfit, hlocals⟩ := hcs c (List.mem_cons_of_mem _ hc)
      exact ⟨hfit.mono (Nat.le_trans hle hle'), hlocals⟩
    apply (ih hrest).mono
    rintro as es' ⟨has, hall⟩
    exact ⟨.cons ⟨s, r, s₁, s₂, hselect, ha⟩ has, List.forall_mem_cons.mpr ⟨hcomplete, hall⟩⟩

end

section
variable {p : Program} {a : Analysis} {l : Layout} {c : Code} {s : Supply}

theorem Program.has_of_mem_nodes {n : Node} (h : n ∈ p.nodes) : p.Has n := by
  rw [Program.Has, ← enter_mem_walk, ← mem_entered]
  exact h

theorem Program.Made.exists_report (h : p.Made a l c s) (chunks : Chunks) {routines : List Routine.Allocated}
    (hroutines : ∀ r ∈ routines, ∃ regs, r.Complete regs) : ∃ report, p.report a l c chunks routines = .ok report := by
  have hdecl : ∀ {d}, .decl d ∈ p.nodes → ¬ d.HasRole .component → ∃ k, p.InCode (k, .decl d) := fun hd hrole =>
    (h.inCode_or_inert (Program.has_of_mem_nodes hd)).resolve_right hrole
  have hframe : ∀ n ∈ p.nodes, ∃ j, n.reportFrame l = .ok j := by
    intro n hn
    unfold Node.reportFrame
    split
    case h_3 => exact ⟨none, rfl⟩
    all_goals
      obtain ⟨k, hk⟩ := hdecl hn id
      obtain ⟨f, hf, -⟩ := h.laidOut.frames k _ hk rfl
      exact ⟨_, bind_eq_ok.mpr ⟨f, orFault_eq_ok.mpr hf, rfl⟩⟩
  have haccess : ∀ n ∈ p.nodes, ∃ j, n.reportAccess l = .ok j := by
    intro n hn
    unfold Node.reportAccess
    split
    case h_3 => exact ⟨none, rfl⟩
    all_goals
      obtain ⟨k, hk⟩ := hdecl hn fun hrole => by cases hrole
      obtain ⟨x, hx, -⟩ := h.laidOut.accesses k _ hk rfl
      exact ⟨_, bind_eq_ok.mpr ⟨x, orFault_eq_ok.mpr hx, rfl⟩⟩
  have hbody : ∀ n ∈ p.nodes, ∃ j, n.reportBody c = .ok j := by
    intro n hn
    unfold Node.reportBody
    split
    · obtain ⟨f, code, -, hcode, -⟩ := h.exists_takes (Program.has_of_mem_nodes hn)
      exact ⟨_, bind_eq_ok.mpr ⟨code, orFault_eq_ok.mpr hcode, rfl⟩⟩
    · exact ⟨none, rfl⟩
  obtain ⟨frames, hframes⟩ := exists_mapM_eq_ok hframe
  obtain ⟨accesses, haccesses⟩ := exists_mapM_eq_ok haccess
  obtain ⟨bodies, hbodies⟩ := exists_mapM_eq_ok hbody
  obtain ⟨rs, hrs⟩ := exists_mapM_eq_ok fun r hr => (hroutines r hr).elim fun _ h => h.exists_ofAllocated
  exact ⟨_, bind_eq_ok.mpr ⟨frames, hframes, bind_eq_ok.mpr ⟨accesses, haccesses, bind_eq_ok.mpr ⟨bodies, hbodies,
    bind_eq_ok.mpr ⟨rs, hrs, rfl⟩⟩⟩⟩⟩

theorem exists_listing (kept : Nat) (data : List DataChunk) {routines : List Routine.Allocated}
    (hroutines : ∀ r ∈ routines, ∃ regs, r.Complete regs) :
    ∃ text, listing kept data (routines.map (·.routine)) = .ok text := by
  have hrows : ∀ r ∈ routines.map (·.routine), ∃ text,
      (do return Mmix.sectionText (← r.rows kept) : Except CompileError String) = .ok text := by
    intro r hr
    obtain ⟨a, ha, rfl⟩ := List.mem_map.mp hr
    obtain ⟨regs, hregs⟩ := hroutines a ha
    obtain ⟨rows, hrows⟩ := hregs.exists_rows kept
    exact ⟨_, bind_eq_ok.mpr ⟨rows, hrows, rfl⟩⟩
  obtain ⟨functions, hfunctions⟩ := exists_mapM_eq_ok hrows
  exact ⟨_, bind_eq_ok.mpr ⟨functions, hfunctions, rfl⟩⟩

end

/-- Compilation goes through its stages, or fails at one of the first. -/
theorem meets_compileText (src : String) {registers : Nat} (hregisters : 2 ≤ registers) (es : List Event) :
    Meets (compileText src registers) es (fun c _ => ∃ x : Stages, x.Of src registers c) (Fails src) := by
  rw [compileText]
  refine meets_parse.bind fun p es₁ hp => ?_
  refine (meets_analyze_of_parse hp).bind fun a es₂ ha => ?_
  have hanalyzed := (Program.formed_parse hp).analyzed ha
  refine (meets_layout hp ha).bind ?_
  rintro _ es₃ ⟨planner, hlayout, rfl⟩
  have hlaid : p.LaidOut planner.layout planner.supply := (hanalyzed.meets_plan.of_gives hlayout).1
  refine (meets_code hanalyzed hlaid).bind ?_
  rintro _ es₄ ⟨g, hcode, rfl, hmade⟩
  refine (meets_chunks hmade).bind ?_
  rintro ⟨chunks, s⟩ es₅ ⟨hchunks, hfit⟩
  have hlocals : ∀ chunk ∈ chunks.code, chunk.Fit s ∧ 0 ≤ chunk.frame.locals := by
    intro chunk hchunk
    obtain ⟨d, -, hframe, hchunk⟩ := exists_left_of_forall₂ hfit hchunk
    obtain ⟨_, _, -, -, hsuits⟩ := hlaid.sound.frames _ _ hframe
    exact ⟨hchunk, hsuits.locals⟩
  refine (meets_routines hregisters hlocals).bind ?_
  rintro routines es₆ ⟨hroutines, hcomplete⟩
  obtain ⟨report, hreport⟩ := hmade.exists_report chunks hcomplete
  obtain ⟨text, hlisting⟩ := exists_listing registers chunks.data hcomplete
  simp only [meets_bind, meets_liftM, hreport, hlisting, results_ok, meets_pure]
  exact ⟨⟨p, a, planner, g, chunks, s, routines⟩, hp, ha, hlayout, hcode, hchunks, hroutines, hreport, hlisting⟩

theorem compile_cases (src : String) {registers : Nat} (hregisters : 2 ≤ registers) :
    (∃ c, (compile src registers).1 = .ok c ∧ ∃ x : Stages, x.Of src registers c) ∨
      ∃ e, (compile src registers).1 = .error e ∧ Fails src e := by
  have h := meets_compileText src hregisters []
  rcases houtcome : outcome (compileText src registers) [] with ⟨e | c, events⟩
  · rw [Meets, houtcome] at h
    exact .inr ⟨e, congrArg Prod.fst houtcome, h⟩
  · rw [Meets, houtcome] at h
    exact .inl ⟨c, congrArg Prod.fst houtcome, h⟩

theorem Fails.of_source {src : String} {e : CompileError} (h : Fails src e) :
    (∃ f, e = .parse f) ∨ ∃ f, e = .semantic f ∧ f.fault.Static := by
  cases h with
  | parse => exact .inl ⟨_, rfl⟩
  | analyze hp h => exact .inr ⟨_, rfl, (Program.formed_parse hp).static_of_analyze h⟩
  | @layout _ _ _ e _ _ hlarge =>
    cases e with
    | semantic f =>
      obtain ⟨name, hfault⟩ := hlarge
      exact .inr ⟨f, rfl, hfault ▸ trivial⟩
    | parse | internal => exact hlarge.elim

/-- No phase of a compilation is given what it cannot handle. Every error is one of parsing or analysis, and none is
about a variable that cannot be reached. A program that passes analysis goes through all stages, unless a frame is too
large. -/
theorem compile_error_of_source (src : String) (registers : Nat) (hregisters : 2 ≤ registers) :
    (∀ e, (compile src registers).1 = .error e →
      (∃ f, e = .parse f) ∨ ∃ f, e = .semantic f ∧ ∀ name, f.fault ≠ .inaccessible name) ∧
    ∀ p a, (Program.parse src).1 = .ok p → p.analyze = .ok a →
      (∃ position name planner, let e : CompileError := .semantic ⟨position, .type (.frameTooLarge name)⟩
        p.layout a {} = (.error e, planner) ∧ (compile src registers).1 = .error e) ∨
      ∃ x c, Stages.Of x src registers c ∧ x.program = p ∧ x.analysis = a ∧ (compile src registers).1 = .ok c := by
  constructor
  · intro e he
    obtain ⟨c, hc, -⟩ | ⟨e', he', hfails⟩ := compile_cases src hregisters
    · rw [he] at hc
      cases hc
    · rw [he] at he'
      cases he'
      refine hfails.of_source.imp_right fun ⟨f, hf, hstatic⟩ => ⟨f, hf, fun name heq => ?_⟩
      rw [heq] at hstatic
      exact hstatic
  · intro p a hp ha
    obtain ⟨c, hc, x, hx⟩ | ⟨e, he, hfails⟩ := compile_cases src hregisters
    · obtain rfl : x.program = p := Except.ok.inj (hx.parse.symm.trans hp)
      obtain rfl : x.analysis = a := Except.ok.inj (hx.analyze.symm.trans ha)
      exact .inr ⟨x, c, hx, rfl, rfl, hc⟩
    · cases hfails with
      | parse h => cases h.symm.trans hp
      | analyze hp' h =>
        cases hp'.symm.trans hp
        cases h.symm.trans ha
      | @layout _ _ planner _ hp' ha' hlarge h =>
        cases hp'.symm.trans hp
        cases ha'.symm.trans ha
        cases e with
        | semantic f =>
          obtain ⟨position, fault⟩ := f
          obtain ⟨name, rfl⟩ := hlarge
          exact .inl ⟨position, name, planner, h, he⟩
        | parse | internal => exact hlarge.elim

/-- A function within another, which reads a variable of it. -/
def nestedFunctions : String :=
  "fun put(c: char): void; fun main(): int = \x7b x = 1; if x < 2 then x = twice(3); end; : x where var x: int; " ++
    "fun twice(n: int): int = \x7b put((n: char)); : n + x \x7d; \x7d;"

theorem analyze_nestedFunctions : ∃ p a, (Program.parse nestedFunctions).1 = .ok p ∧ p.analyze = .ok a ∧
    (p.layout a {}).1 = .ok () ∧ p.bodies.length = 2 ∧ p.decls.map Decl.name = ["put", "main"] := by
  have h : ((Program.parse nestedFunctions).1.toOption.bind fun p => p.analyze.toOption.bind fun a =>
      (p.layout a {}).1.toOption.map fun _ => (p.bodies.length, p.decls.map Decl.name)) =
        some (2, ["put", "main"]) := by
    unfold nestedFunctions
    rw [← String.ofList_append, Program.parse_ofList]
    decide +kernel
  simp only [Option.bind_eq_some_iff, Option.map_eq_some_iff, toOption_eq_some, Prod.mk.injEq] at h
  obtain ⟨p, hp, a, ha, _, hl, h⟩ := h
  exact ⟨p, a, hp, ha, hl, h⟩

theorem nestedFunctions_compiles : ∃ c, (compile nestedFunctions 2).1 = .ok c := by
  obtain ⟨p, a, hp, ha, hlayout, -⟩ := analyze_nestedFunctions
  obtain ⟨position, name, planner, hlarge, -⟩ | ⟨x, c, -, -, -, hc⟩ :=
    (compile_error_of_source nestedFunctions 2 (by decide)).2 p a hp ha
  · rw [hlarge] at hlayout
    cases hlayout
  · exact ⟨c, hc⟩

end MmixCompiler
