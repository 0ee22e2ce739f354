import MmixCompiler.Proofs.Compilation

/-! Lowering: the stages from a text to the canonical code of its functions, and how chunks and routines
take from one supply, one after the other. -/

namespace MmixCompiler

open Fresh Compile Ir

variable {s : Supply} {p : Program} {x : Lowering} {src : String} {registers : Nat}

section
variable {α β σ : Type} {R R' : α → σ → β → σ → Prop} {xs : List α} {ys : List β} {s s' : σ}

/-- Results made one after the other, each from the state that the one before it leaves. -/
inductive Threaded (R : α → σ → β → σ → Prop) : List α → σ → List β → σ → Prop where
  | nil (s : σ) : Threaded R [] s [] s
  | cons {x : α} {y : β} {xs : List α} {ys : List β} {s s₁ s' : σ} (h : R x s y s₁)
      (hrest : Threaded R xs s₁ ys s') : Threaded R (x :: xs) s (y :: ys) s'

theorem threaded_of_mapM {ε : Type} {f : α → ExceptT ε (StateM σ) β} (h : Gives (xs.mapM f) s ys s') :
    Threaded (fun x s y s' => Gives (f x) s y s') xs s ys s' := by
  induction xs generalizing s ys with
  | nil =>
    obtain ⟨rfl, rfl⟩ := gives_mapM_nil.mp h
    exact .nil s
  | cons x xs ih =>
    obtain ⟨y, s₁, ys, hy, hys, rfl⟩ := gives_mapM_cons.mp h
    exact .cons hy (ih hys)

theorem Threaded.imp (h : Threaded R xs s ys s') {I : σ → Prop} (hs : I s)
    (hstep : ∀ x ∈ xs, ∀ s y s', I s → R x s y s' → I s' ∧ R' x s y s') : Threaded R' xs s ys s' ∧ I s' := by
  induction h with
  | nil s => exact ⟨.nil s, hs⟩
  | cons h _ ih =>
    obtain ⟨hfirst, hrest⟩ := List.forall_mem_cons.mp hstep
    obtain ⟨hs₁, hR'⟩ := hfirst _ _ _ hs h
    obtain ⟨hthread, hs'⟩ := ih hs₁ hrest
    exact ⟨.cons hR' hthread, hs'⟩

theorem Threaded.related (h : Threaded R xs s ys s') : List.Forall₂ (fun x y => ∃ s₁ s₂, R x s₁ y s₂) xs ys := by
  induction h with
  | nil => exact .nil
  | cons h _ ih => exact .cons ⟨_, _, h⟩ ih

/-- Supplies only grow on the way, so each result is made between the first and the last. -/
theorem Threaded.forall₂ {R : α → Supply → β → Supply → Prop} {s s' : Supply} (h : Threaded R xs s ys s')
    (hstep : ∀ x s y s', R x s y s' → s.Before s') : s.Before s' ∧
      List.Forall₂ (fun x y => ∃ s₁ s₂, s.Before s₁ ∧ s₂.Before s' ∧ R x s₁ y s₂) xs ys := by
  induction h with
  | nil s => exact ⟨.refl s, .nil⟩
  | cons h _ ih =>
    obtain ⟨hle, hrest⟩ := ih
    have hs₁ := hstep _ _ _ _ h
    refine ⟨hs₁.trans hle, .cons ⟨_, _, .refl _, hle, h⟩ (hrest.imp ?_)⟩
    rintro _ _ ⟨s₂, s₃, hs₂, h⟩
    exact ⟨s₂, s₃, hs₁.trans hs₂, h⟩

/-- Of two results the earlier one was finished before the later one was begun. -/
theorem Threaded.pairwise {R : α → Supply → β → Supply → Prop} {s s' : Supply} (h : Threaded R xs s ys s')
    (hstep : ∀ x s y s', R x s y s' → s.Before s') : (xs.zip ys).Pairwise fun u v =>
      ∃ s₁ s₂ s₃ s₄, s.Before s₁ ∧ R u.1 s₁ u.2 s₂ ∧ s₂.Before s₃ ∧ R v.1 s₃ v.2 s₄ := by
  induction h with
  | nil => exact .nil
  | @cons x y xs ys s s₁ s' h hrest ih =>
    have hs₁ := hstep _ _ _ _ h
    refine List.pairwise_cons.mpr ⟨fun v hv => ?_, ih.imp ?_⟩
    · obtain ⟨s₂, s₃, hs₂, -, hv⟩ := (List.forall₂_iff_zip.mp (hrest.forall₂ hstep).2).2 hv
      exact ⟨s, s₁, s₂, s₃, .refl s, h, hs₂, hv⟩
    · rintro u v ⟨s₂, s₃, s₄, s₅, hs₂, hrest⟩
      exact ⟨s₂, s₃, s₄, s₅, hs₁.trans hs₂, hrest⟩

end

section
variable {f : Frame} {body : Ir.Expr} {s s' : Supply} {c : CodeChunk}

theorem Frame.Takes.fit_of_gives (h : f.Takes body s) (hc : Gives (f.chunk body) s c s') : c.Fit s' ∧ s.Before s' := by
  obtain ⟨code, last, hbody, rfl⟩ := gives_chunk.mp hc
  have hlaid := (body.flattens hbody).laid
  refine ⟨h.fit hlaid (body.flat hbody) _, hlaid.temps, ?_⟩
  exact Nat.le_trans (Nat.le_add_right ..) hlaid.numbers

end

theorem Program.Made.exists_coded {a : Analysis} {l : Layout} {c : Code} (h : p.Made a l c s)
    {mark : Mark} {name : String} {params : List Decl} {result : TypeExpr} {body : MmixCompiler.Expr}
    (hd : p.Has (.decl (.function mark name params result body))) :
    ∃ f code, l.frames[mark.id]? = some f ∧ c.bodies[mark.id]? = some code ∧ f.Takes code s ∧
      Coded a l c s.labels f (.value body code) := by
  obtain ⟨f, code, hf, hcode, htakes⟩ := h.exists_takes hd
  obtain ⟨k, hk⟩ := (h.inCode_or_inert hd).resolve_right fun hinert => hinert.elim
  obtain ⟨-, f', code', hf', hcode', -, -, hcoded⟩ := h.covered hk
  obtain rfl : f' = f := Option.some.inj (hf'.symm.trans hf)
  obtain rfl : code' = code := Option.some.inj (hcode'.symm.trans hcode)
  exact ⟨f', code', hf, hcode, htakes, hcoded⟩

/-- What the stages from a text to chunks hand on. -/
structure Lowering where
  program : Program
  analysis : Analysis
  planner : Planner
  generator : Generator
  chunks : Chunks
  supply : Supply

/-- The stages of lowering a text, each made from those before it. -/
structure Lowering.Of (x : Lowering) (src : String) : Prop where
  parse : (Program.parse src).1 = .ok x.program
  analyze : x.program.analyze = .ok x.analysis
  layout : x.program.layout x.analysis {} = (.ok (), x.planner)
  code : x.program.code x.analysis x.planner.layout x.planner.supply = (.ok (), x.generator)
  chunks : x.program.chunks x.planner.layout x.generator.code x.generator.supply = .ok (x.chunks, x.supply)

/-- The chunk of a function, with its frame and the code of its body. -/
structure Lowering.Makes (x : Lowering) (d : Decl × MmixCompiler.Expr) (s : Supply) (chunk : CodeChunk)
    (s' : Supply) : Prop where
  frame : x.planner.layout.frames[d.1.id]? = some chunk.frame
  body : ∃ body, x.generator.code.bodies[d.1.id]? = some body ∧
    Coded x.analysis x.planner.layout x.generator.code x.generator.supply.labels chunk.frame (.value d.2 body) ∧
    chunk.frame.Takes body s ∧ Gives (chunk.frame.chunk body) s chunk s'

namespace Lowering.Of

variable {x : Lowering} {src : String}

theorem formed (h : x.Of src) : x.program.Formed := Program.formed_parse h.parse

theorem analyzed (h : x.Of src) : x.program.Analyzed x.analysis := h.formed.analyzed h.analyze

theorem laidOut (h : x.Of src) : x.program.LaidOut x.planner.layout x.planner.supply :=
  (h.analyzed.meets_plan.of_gives h.layout).1

theorem made (h : x.Of src) : x.program.Made x.analysis x.planner.layout x.generator.code x.generator.supply := by
  obtain ⟨htemps, hcoded⟩ := (h.analyzed.meets_code h.laidOut).of_gives h.code
  exact ⟨h.analyzed, h.laidOut.mono (Nat.le_of_eq htemps.symm), hcoded⟩

theorem gives_chunkCode (h : x.Of src) : Gives (x.program.chunkCode x.planner.layout x.generator.code)
    x.generator.supply x.chunks.code x.supply := by
  have hchunks := h.chunks
  unfold Program.chunks at hchunks
  obtain ⟨data, -, hchunks⟩ := bind_eq_ok.mp hchunks
  split at hchunks
  · next hrun =>
    obtain ⟨hcode, hsupply⟩ := Prod.mk.inj (Except.ok.inj hchunks)
    rw [← hcode, ← hsupply]
    exact hrun
  · cases hchunks

theorem threaded (h : x.Of src) : Threaded x.Makes x.program.bodies x.generator.supply x.chunks.code x.supply := by
  have hthreaded := threaded_of_mapM h.gives_chunkCode
  refine (hthreaded.imp (I := x.generator.supply.Before) (.refl _) ?_).1
  rintro ⟨d, body⟩ hd s chunk s' hs hchunk
  simp only [gives_bind, gives_lift] at hchunk
  obtain ⟨f, _, ⟨hf, rfl⟩, code, _, ⟨hcode, rfl⟩, hchunk⟩ := hchunk
  obtain ⟨hhas, hbody⟩ := Program.mem_bodies.mp hd
  cases d with
  | typed | proto => cases hbody
  | function mark name params result body =>
    cases hbody
    obtain ⟨f', code', hf', hcode', htakes, hcoded⟩ := h.made.exists_coded hhas
    obtain rfl : f = f' := Option.some.inj ((orFault_eq_ok.mp hf).symm.trans hf')
    obtain rfl : code = code' := Option.some.inj ((orFault_eq_ok.mp hcode).symm.trans hcode')
    have htakes := htakes.mono hs
    obtain ⟨hfit, hbefore⟩ := htakes.fit_of_gives hchunk
    have hframe : chunk.frame = f := by
      obtain ⟨_, _, -, rfl⟩ := gives_chunk.mp hchunk
      rfl
    subst hframe
    exact ⟨hs.trans hbefore, hf', code, hcode', hcoded, htakes, hchunk⟩

end Lowering.Of

theorem Lowering.Makes.fit {d : Decl × MmixCompiler.Expr} {s' : Supply} {chunk : CodeChunk}
    (h : x.Makes d s chunk s') : chunk.Fit s' ∧ s.Before s' := by
  obtain ⟨body, -, -, htakes, hchunk⟩ := h.body
  exact htakes.fit_of_gives hchunk

theorem Lowering.Of.fit {x : Lowering} {src : String} (h : x.Of src) {c : CodeChunk} (hc : c ∈ x.chunks.code) :
    c.Fit x.supply ∧ 0 ≤ c.frame.locals := by
  obtain ⟨-, hchunks⟩ := h.threaded.forall₂ fun _ _ _ _ h => h.fit.2
  obtain ⟨d, -, s₁, s₂, -, hs₂, hmakes⟩ := exists_left_of_forall₂ hchunks hc
  obtain ⟨_, _, -, -, hsuits⟩ := h.laidOut.sound.frames _ _ hmakes.frame
  exact ⟨hmakes.fit.1.mono hs₂.1, hsuits.locals⟩

def Stages.lowering (x : Stages) : Lowering := ⟨x.program, x.analysis, x.planner, x.generator, x.chunks, x.supply⟩

theorem Stages.Of.lowering {x : Stages} {c : Compilation} (h : x.Of src registers c) : x.lowering.Of src :=
  ⟨h.parse, h.analyze, h.layout, h.code, h.chunks⟩

/-- The routine of a chunk, with registers, made between two supplies. -/
def CodeChunk.BecomesFrom (registers : Nat) (c : CodeChunk) (s : Supply) (a : Routine.Allocated) (s' : Supply) : Prop :=
  ∃ r s₁, Gives (c.select registers) s r s₁ ∧ Gives (r.allocate registers) s₁ a s'

section
variable {registers : Nat} {es es' : List Event}

theorem gives_of_fresh {α : Type} {f : Fresh α} {p : α × Supply}
    (h : Gives (Compile.fresh f s) es p es') : Gives f s p.1 p.2 := by
  unfold Compile.fresh at h
  split at h
  · next hrun =>
    obtain ⟨rfl, -⟩ := gives_pure.mp h
    exact hrun
  · cases h

theorem threaded_of_routines {cs : List CodeChunk} {as : List Routine.Allocated}
    (h : Gives (Compile.routines registers cs s) es as es') :
    ∃ s', Threaded (CodeChunk.BecomesFrom registers) cs s as s' := by
  induction cs generalizing s as es es' with
  | nil =>
    obtain ⟨rfl, -⟩ := gives_pure.mp h
    exact ⟨s, .nil s⟩
  | cons c cs ih =>
    simp only [Compile.routines, gives_bind, gives_pure] at h
    obtain ⟨⟨r, s₁⟩, _, hselect, _, _, -, ⟨a, s₂⟩, _, hallocate, _, _, -, as', _, hrest, rfl, -⟩ := h
    obtain ⟨s', hthread⟩ := ih hrest
    exact ⟨s', .cons ⟨r, s₁, gives_of_fresh hselect, gives_of_fresh hallocate⟩ hthread⟩

end

theorem exists_stages {c : Compilation} (h : (compile src registers).1 = .ok c) : ∃ x : Stages, x.Of src registers c ∧
      ∃ s, Threaded (CodeChunk.BecomesFrom registers) x.chunks.code x.supply x.routines s := by
  obtain ⟨es, hrun⟩ : ∃ es, Gives (compileText src registers) [] c es := ⟨_, Prod.ext h rfl⟩
  simp only [compileText, gives_bind, gives_lift, gives_pure] at hrun
  obtain ⟨p, _, hp, a, _, ha, ⟨l, s₁⟩, _, hl, ⟨code, s₂⟩, _, hcode, ⟨chunks, s₃⟩, _, hchunks, routines, _, hroutines,
    report, _, ⟨hreport, -⟩, text, _, ⟨hlisting, -⟩, rfl, -⟩ := hrun
  have hparse := meets_parse.of_gives hp
  have hanalyze := (meets_analyze_of_parse hparse).of_gives ha
  have hanalyzed := (Program.formed_parse hparse).analyzed hanalyze
  obtain ⟨planner, hlayout, heq⟩ := (meets_layout hparse hanalyze).of_gives hl
  cases heq
  have hlaid : p.LaidOut planner.layout planner.supply := (hanalyzed.meets_plan.of_gives hlayout).1
  obtain ⟨g, hgen, heq, hmade⟩ := (meets_code hanalyzed hlaid : Meets _ _ _ fun _ => True).of_gives hcode
  cases heq
  have hmeets := (meets_chunks hmade : Meets _ _ _ fun _ => True).of_gives hchunks
  obtain ⟨s, hthread⟩ := threaded_of_routines hroutines
  refine ⟨⟨p, a, planner, g, chunks, s₃, routines⟩, ⟨hparse, hanalyze, hlayout, hgen, hmeets.1, ?_, hreport, hlisting⟩,
    s, hthread⟩
  apply hthread.related.imp
  rintro _ _ ⟨s₁, s₂, r, s, hselect, hallocate⟩
  exact ⟨s₁, r, s, s₂, hselect, hallocate⟩

/-- A program that passes analysis compiles if its frames are not too large. -/
theorem exists_compile {a : Analysis} (hregisters : 2 ≤ registers)
    (hp : (Program.parse src).1 = .ok p) (ha : p.analyze = .ok a) (hl : (p.layout a {}).1 = .ok ()) :
    ∃ c, (compile src registers).1 = .ok c := by
  obtain ⟨c, hc, -⟩ | ⟨e, -, hfails⟩ := compile_cases src hregisters
  · exact ⟨c, hc⟩
  · cases hfails with
    | parse h => cases h.symm.trans hp
    | analyze hp' h =>
      cases hp'.symm.trans hp
      cases h.symm.trans ha
    | layout hp' ha' _ h =>
      cases hp'.symm.trans hp
      cases ha'.symm.trans ha
      rw [h] at hl
      cases hl

theorem exists_compile_of_isSome (hregisters : 2 ≤ registers)
    (h : ((Program.parse src).1.toOption.bind fun p => p.analyze.toOption.bind fun a =>
      (p.layout a {}).1.toOption).isSome) : ∃ c, (compile src registers).1 = .ok c := by
  simp only [Option.isSome_iff_exists, Option.bind_eq_some_iff, toOption_eq_some] at h
  obtain ⟨_, p, hp, a, ha, hl⟩ := h
  exact exists_compile hregisters hp ha hl

theorem exists_compile_nestedFunctions : ∃ c, (compile nestedFunctions 2).1 = .ok c := by
  obtain ⟨p, a, hp, ha, hl, -⟩ := analyze_nestedFunctions
  exact exists_compile (Nat.le_refl 2) hp ha hl

theorem parse_nestedFunctions (h : (Program.parse nestedFunctions).1 = .ok p) :
    p.bodies.length = 2 ∧ p.decls.map Decl.name = ["put", "main"] := by
  obtain ⟨p', -, hp, -, -, hp'⟩ := analyze_nestedFunctions
  obtain rfl : p' = p := Except.ok.inj (hp.symm.trans h)
  exact hp'

theorem Lowering.Of.length_nestedFunctions (h : x.Of nestedFunctions) : x.chunks.code.length = 2 := by
  rw [← h.threaded.related.length_eq]
  exact (parse_nestedFunctions h.parse).1

end MmixCompiler
