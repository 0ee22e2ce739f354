import MmixCompiler.Proofs.Lowering

/-! The chunks of a program are closed and separate: each is entered at its first statement, jumps only to its own
labels, and shares no label and no temporary with another. There is one for every function with a body, nested ones
before the function around them. -/

namespace MmixCompiler

open Ir List

variable {f : Frame} {c : CodeChunk} {l : Label}

section
variable {a : Analysis} {l : Layout} {code : Code} {bound : Nat} {f : Frame} {t : Translation}

def Translation.Names (P : Label → Prop) : Translation → Prop
  | .value _ c | .address _ c => ∀ x ∈ c.names, P x
  | .values _ cs => ∀ x ∈ Expr.namesAll cs, P x
  | .stmt _ c => ∀ x ∈ c.names, P x
  | .stmts _ cs => ∀ x ∈ Stmt.namesAll cs, P x
  | .bodies _ => True

theorem Frame.names_link (f : Frame) (n : Nat) : (f.link n).names = [] := by
  induction n with
  | zero => rfl
  | succ n ih => exact ih

theorem Frame.names_linkTo {callee : Frame} {c : Ir.Expr} (h : f.linkTo callee = .ok c) : c.names = [] := by
  obtain rfl | ⟨n, rfl⟩ := Frame.linkTo_cases h
  · rfl
  · exact f.names_link n

/-- Code names functions, variables at the top and strings. -/
theorem Coded.names {P : Label → Prop} (hnamed : ∀ name, P (.named name))
    (hframes : ∀ (id : NodeId) f, l.frames[id]? = some f → P f.label)
    (haccesses : ∀ (id : NodeId) label size, l.accesses[id]? = some (.absolute label size) → P label)
    (hstrings : ∀ (id : NodeId) label content, code.strings[id]? = some (label, content) → P label)
    (h : Coded a l code bound f t) : t.Names P := by
  induction h with
  | number => simp [Translation.Names, Ir.Expr.names]
  | string h => simpa [Translation.Names, Ir.Expr.names] using hstrings _ _ _ h
  | load _ ih | deref _ _ ih | plus _ _ ih | minus _ _ ih | not _ _ ih | addr _ _ ih => exact ih
  | name _ hx hc =>
    obtain ⟨label, size, rfl, rfl⟩ | ⟨n, offset, rfl⟩ := Access.address_cases hc
    · simpa [Translation.Names, Ir.Expr.names] using haccesses _ _ _ hx
    · simp [Translation.Names, Ir.Expr.names, Frame.names_link]
  | index _ _ _ _ _ iharray ihindex =>
    exact forall_mem_append.mpr ⟨iharray, forall_mem_append.mpr ⟨ihindex, by simp [Ir.Expr.names]⟩⟩
  | field _ _ _ _ _ ih => exact forall_mem_append.mpr ⟨ih, by simp [Ir.Expr.names]⟩
  | call _ hcallee hlink _ _ ih =>
    refine forall_mem_cons.mpr ⟨hframes _ _ hcallee, forall_mem_append.mpr ⟨?_, ih⟩⟩
    simp [Frame.names_linkTo hlink]
  | binary _ _ _ ihl ihr => exact forall_mem_append.mpr ⟨ihl, ihr⟩
  | cast _ _ _ ih =>
    simp only [Translation.Names]
    split
    · exact forall_mem_append.mpr ⟨ih, by simp [Ir.Expr.names]⟩
    · exact ih
  | new => simpa [Translation.Names, Ir.Expr.names, Ir.Expr.namesAll] using hnamed _
  | del _ _ ih =>
    refine forall_mem_cons.mpr ⟨hnamed _, ?_⟩
    simpa [Translation.Names, Ir.Expr.namesAll, Ir.Expr.names] using ih
  | block _ _ _ _ _ ihs ih => exact forall_mem_append.mpr ⟨ihs, ih⟩
  | noValues | noStmts => simp [Translation.Names, Ir.Expr.namesAll, Ir.Stmt.namesAll]
  | values _ _ ih ihs => exact forall_mem_append.mpr ⟨ih, ihs⟩
  | eval _ ih => exact ih
  | assign _ _ ihdst ihsrc => exact forall_mem_append.mpr ⟨ihdst, ihsrc⟩
  | cond _ _ _ _ ih ihyes ihno =>
    have hall := forall_mem_append.mpr ⟨ih, forall_mem_append.mpr ⟨ihyes, ihno⟩⟩
    simpa [Translation.Names, Ir.Stmt.names, Ir.Stmt.namesAll] using hall
  | loop _ _ _ ih ihbody =>
    have hall := forall_mem_append.mpr ⟨ih, ihbody⟩
    simpa [Translation.Names, Ir.Stmt.names, Ir.Stmt.namesAll] using hall
  | stmts _ _ ih ihs => exact forall_mem_append.mpr ⟨ih, ihs⟩
  | noBodies | noBody | body => trivial

end

/-- A chunk has the labels of its body and others that it took from the supply, among them not that of its exit; its
temporaries are those of its frame and others that it took. -/
structure CodeChunk.Spans (c : CodeChunk) (body : Ir.Expr) (s s' : Supply) : Prop where
  head : c.stmts.head? = some (.label c.entry)
  exit : c.exit.Between s.labels s'.labels
  labels : ∀ l ∈ labelsOf c.stmts, l ∈ body.labels ∨ l.Between s.labels s'.labels ∧ l ≠ c.exit
  temps : ∀ st ∈ c.stmts, ∀ t ∈ st.temps, t ∈ [c.frame.fp, c.frame.rv] ∨ s.temps ≤ t ∧ t < s'.temps
  names : ∀ st ∈ c.stmts, st.names ⊆ body.names

theorem Frame.Takes.spans {body : Ir.Expr} {s s' : Supply} (h : f.Takes body s)
    (hc : Gives (f.chunk body) s c s') : c.Spans body s s' := by
  obtain ⟨code, last, hbody, rfl⟩ := gives_chunk.mp hc
  have hlaid := (body.flattens hbody).laid
  have hnumbers : s.labels + 2 ≤ s'.labels := hlaid.numbers
  obtain ⟨⟨-, htemps, hnames⟩, hflat⟩ := body.flat hbody
  have hknown : ∀ t, Known body.temps s.entered s' t → t ∈ [f.fp, f.rv] ∨ s.temps ≤ t ∧ t < s'.temps := by
    rintro t (ht | ht)
    · exact .inl (mem_cons.mpr (.inl (h.temps t ht)))
    · exact .inr ht
  refine ⟨rfl, ⟨_, rfl, Nat.le_succ _, hnumbers⟩, fun l hl => ?_, fun st hst t ht => ?_, fun st hst l hl => ?_⟩
  · rw [Frame.labelsOf_stmts] at hl
    rcases mem_cons.mp hl with rfl | hl
    · refine .inr ⟨⟨_, rfl, Nat.le_refl _, by omega⟩, fun heq => ?_⟩
      have := Label.fresh.inj heq
      omega
    · refine (mem_append.mp (hlaid.labels.subset hl)).imp_right fun hl => ?_
      obtain ⟨n, hn, rfl⟩ := mem_map.mp hl
      have hrange : s.labels + 2 ≤ n ∧ n < s.labels + 2 + (s'.labels - (s.labels + 2)) := mem_range'_1.mp hn
      refine ⟨⟨n, rfl, by omega, by omega⟩, fun heq => ?_⟩
      have := Label.fresh.inj heq
      omega
  · rcases Frame.mem_stmts.mp hst with rfl | hst | rfl | rfl
    · cases ht
    · exact hknown t (hflat.temps st hst t ht)
    · rcases mem_append.mp ht with ht | ht
      · exact .inl (mem_cons_of_mem _ ht)
      · exact hknown t (htemps t ht)
    · exact .inl ht
  · rcases Frame.mem_stmts.mp hst with rfl | hst | rfl | rfl
    · cases hl
    · exact hflat.names st hst hl
    · exact hnames hl
    · cases hl

/-- The labels that a canonical statement mentions: one that stands there, those it goes to and those it names. -/
def Ir.Stmt.mentions (st : Stmt) : List Label := st.label?.toList ++ st.gotos ++ st.names

def CodeChunk.temps (c : CodeChunk) : List Temp := c.stmts.flatMap Stmt.temps

/-- Chunks that are closed and separate, one for every function with a body. -/
structure Lowering.Separate (x : Lowering) : Prop where
  /-- A label stands at one place of one chunk. -/
  labels : (x.chunks.code.flatMap fun c => labelsOf c.stmts).Nodup
  gotos : ∀ c ∈ x.chunks.code, ∀ st ∈ c.stmts, st.gotos ⊆ labelsOf c.stmts
  entry : ∀ c ∈ x.chunks.code, c.stmts.head? = some (.label c.entry)
  exit : ∀ c ∈ x.chunks.code, ∀ c' ∈ x.chunks.code, ∀ st ∈ c'.stmts, c.exit ∉ st.mentions
  strings : ∀ (id : NodeId) label content, x.generator.code.strings[id]? = some (label, content) →
    ∀ c ∈ x.chunks.code, label ∉ labelsOf c.stmts
  frames : ∀ (id : NodeId) f, x.planner.layout.frames[id]? = some f → ∀ c ∈ x.chunks.code, f.label ∉ labelsOf c.stmts
  temps : x.chunks.code.Pairwise fun c c' => c.temps.Disjoint c'.temps
  fp : ∀ c ∈ x.chunks.code, ∀ e, .move (.temp c.frame.fp) e ∉ c.stmts
  /-- Chunks stand in the order of the functions that have a body, each with the frame of its function. -/
  functions : List.Forall₂ (fun d c => x.planner.layout.frames[d.1.id]? = some c.frame) x.program.bodies x.chunks.code
  bodies : ∀ d body, (d, body) ∈ x.program.bodies ↔ x.program.Has (.decl d) ∧ d.body? = some body
  once : (x.program.bodies.map fun d => d.1.id).Nodup
  nested : ∀ d e body inner, x.program.Has (.decl d) → d.body? = some body → .decl e ∈ (Node.decl d).nodes → e ≠ d →
    e.body? = some inner → [(e, inner), (d, body)].Sublist x.program.bodies

namespace Lowering.Of

variable {x : Lowering} {src : String} (h : x.Of src)
include h

theorem frame_label {id : NodeId} (hf : x.planner.layout.frames[id]? = some f) {n : Nat}
    (hn : f.label = .fresh n) : n < x.planner.supply.labels := by
  obtain ⟨φ, d, -, hrecords⟩ := (h.analyzed.planned h.layout).frames id f hf
  exact hrecords.label_lt hn

theorem draws : Generator.Draws [] { supply := x.planner.supply } x.generator :=
  ((h.analyzed.makes_code _ _).of_gives h.code).draws (Generator.tidy_start _)

theorem between_of_holds {o : Owner} (hl : x.generator.code.Holds o l) :
    l.Between x.planner.supply.labels x.generator.supply.labels := by
  refine (h.draws.kept o l hl).resolve_left fun hnone => ?_
  cases o <;> simp [Code.Holds] at hnone

theorem spans {d : Decl × MmixCompiler.Expr} {s s' : Supply} (hmakes : x.Makes d s c s') :
    ∃ body, x.generator.code.bodies[d.1.id]? = some body ∧ c.Spans body s s' ∧
      ∀ l ∈ body.names, ∀ n, l = .fresh n → n < x.generator.supply.labels := by
  obtain ⟨body, hbody, hcoded, htakes, hgives⟩ := hmakes.body
  refine ⟨body, hbody, htakes.spans hgives, ?_⟩
  refine hcoded.names (P := fun l => ∀ n, l = .fresh n → n < x.generator.supply.labels) (by simp) ?_ ?_ ?_
  · intro id f hf n hn
    exact Nat.lt_of_lt_of_le (h.frame_label hf hn) h.draws.labels
  · rintro id label size hx n rfl
    obtain ⟨k, e, -, -, -, heq⟩ := h.laidOut.sound.accesses id _ hx
    cases heq
  · rintro id label content hstring n rfl
    obtain ⟨m, heq, -, hlt⟩ := h.between_of_holds (o := .string id) ⟨content, hstring⟩
    cases heq
    exact hlt

theorem exists_makes (hc : c ∈ x.chunks.code) : ∃ d s s', x.generator.supply.Before s ∧ x.Makes d s c s' := by
  have hmade := (h.threaded.forall₂ fun _ _ _ _ hmakes => hmakes.fit.2).2
  obtain ⟨d, -, s, s', hs, -, hmakes⟩ := exists_left_of_forall₂ hmade hc
  exact ⟨d, s, s', hs, hmakes⟩

theorem pairwise_makes : x.chunks.code.Pairwise fun c c' => ∃ d d' s₁ s₂ s₃ s₄, x.generator.supply.Before s₁ ∧
    x.Makes d s₁ c s₂ ∧ s₂.Before s₃ ∧ x.Makes d' s₃ c' s₄ ∧ d.1.id ≠ d'.1.id := by
  have hspans := h.threaded.pairwise fun _ _ _ _ hmakes => hmakes.fit.2
  have hlength := h.threaded.related.length_eq
  have hids : (x.program.bodies.zip x.chunks.code).Pairwise fun u v => u.1.1.id ≠ v.1.1.id := by
    have hnodup := h.formed.numbered.nodup_bodies
    rw [← map_fst_zip (Nat.le_of_eq hlength), map_map] at hnodup
    exact pairwise_map.mp hnodup
  rw [← map_snd_zip (Nat.le_of_eq hlength.symm), pairwise_map]
  refine (hspans.and hids).imp ?_
  rintro u v ⟨⟨s₁, s₂, s₃, s₄, h₁, h₂, h₃, h₄⟩, hne⟩
  exact ⟨u.1, v.1, s₁, s₂, s₃, s₄, h₁, h₂, h₃, h₄, hne⟩

variable {d d' : Decl × MmixCompiler.Expr} {s₁ s₂ s₃ s₄ : Supply} {c c' : CodeChunk}

theorem owner_eq (hs₁ : x.generator.supply.Before s₁) (hc : x.Makes d s₁ c s₂) (hl : l ∈ labelsOf c.stmts)
    {o : Owner} (ho : x.generator.code.Holds o l) : o = .body d.1.id := by
  obtain ⟨body, hbody, hspans, -⟩ := h.spans hc
  rcases hspans.labels l hl with hl | ⟨hl, -⟩
  · exact h.draws.tidy.apart _ _ l ho ⟨body, hbody, hl⟩
  · exact ((h.between_of_holds ho).false_of_le hl hs₁.2).elim

theorem between_of_labels (hs₁ : x.generator.supply.Before s₁) (hc : x.Makes d s₁ c s₂)
    (hl : l ∈ labelsOf c.stmts) : l.Between x.planner.supply.labels s₂.labels := by
  obtain ⟨body, hbody, hspans, -⟩ := h.spans hc
  have hlabels := Nat.le_trans hs₁.2 hc.fit.2.2
  rcases hspans.labels l hl with hl | ⟨hl, -⟩
  · exact (h.between_of_holds (o := .body d.1.id) ⟨body, hbody, hl⟩).mono (Nat.le_refl _) hlabels
  · exact hl.mono (Nat.le_trans h.draws.labels hs₁.2) (Nat.le_refl _)

theorem notMem_labels (hl : l.Between s₁.labels s₂.labels) (hs₁ : x.generator.supply.Before s₁)
    (hapart : s₂.Before s₃ ∨ s₄.Before s₁) (hc' : x.Makes d' s₃ c' s₄) : l ∉ labelsOf c'.stmts := by
  intro hmem
  obtain ⟨body, hbody, hspans, -⟩ := h.spans hc'
  rcases hspans.labels l hmem with hmem | ⟨hmem, -⟩
  · exact (h.between_of_holds (o := .body d'.1.id) ⟨body, hbody, hmem⟩).false_of_le hl hs₁.2
  · rcases hapart with hle | hle
    · exact hl.false_of_le hmem hle.2
    · exact hmem.false_of_le hl hle.2

theorem disjoint_labels (hs₁ : x.generator.supply.Before s₁) (hc : x.Makes d s₁ c s₂) (hs₃ : s₂.Before s₃)
    (hc' : x.Makes d' s₃ c' s₄) (hne : d.1.id ≠ d'.1.id) : (labelsOf c.stmts).Disjoint (labelsOf c'.stmts) := by
  intro l hl hl'
  obtain ⟨body, hbody, hspans, -⟩ := h.spans hc
  rcases hspans.labels l hl with hmem | ⟨hmem, -⟩
  · have hs₃' := (hs₁.trans hc.fit.2).trans hs₃
    have heq := h.owner_eq hs₃' hc' hl' (o := .body d.1.id) ⟨body, hbody, hmem⟩
    exact hne (Owner.body.inj heq)
  · exact h.notMem_labels hmem hs₁ (.inl hs₃) hc' hl'

theorem frame_temps {id : NodeId} (hf : x.planner.layout.frames[id]? = some f) {s : Supply}
    (hs : x.generator.supply.Before s) : ∀ t ∈ [f.fp, f.rv], t < s.temps := by
  obtain ⟨φ, e, -, hrecords⟩ := (h.analyzed.planned h.layout).frames id f hf
  have hbelow := hrecords.below
  rw [← ((h.analyzed.meets_code h.laidOut).of_gives h.code).1] at hbelow
  simpa using ⟨Nat.lt_of_lt_of_le hbelow.1 hs.1, Nat.lt_of_lt_of_le hbelow.2 hs.1⟩

/-- Frames have different temporaries, and those that chunks took are above them. -/
theorem disjoint_temps (hs₁ : x.generator.supply.Before s₁) (hc : x.Makes d s₁ c s₂) (hs₃ : s₂.Before s₃)
    (hc' : x.Makes d' s₃ c' s₄) (hne : d.1.id ≠ d'.1.id) : c.temps.Disjoint c'.temps := by
  intro t ht ht'
  obtain ⟨st, hst, ht⟩ := mem_flatMap.mp ht
  obtain ⟨st', hst', ht'⟩ := mem_flatMap.mp ht'
  obtain ⟨body, -, hspans, -⟩ := h.spans hc
  obtain ⟨body', -, hspans', -⟩ := h.spans hc'
  rcases hspans.temps st hst t ht with ht | ⟨hle, hlt⟩
  · rcases hspans'.temps st' hst' t ht' with ht' | ⟨hle', -⟩
    · exact (h.analyzed.planned h.layout).apart _ _ _ _ hc.frame hc'.frame hne ht ht'
    · exact Nat.not_le.mpr (h.frame_temps hc.frame ((hs₁.trans hc.fit.2).trans hs₃) t ht) hle'
  · rcases hspans'.temps st' hst' t ht' with ht' | ⟨hle', -⟩
    · exact Nat.not_le.mpr (h.frame_temps hc'.frame hs₁ t ht') hle
    · exact Nat.not_le.mpr hlt (Nat.le_trans hs₃.1 hle')

/-- No chunk has the label of an exit: others did not draw it, and its own does not place it. -/
theorem exit_notMem_labels (hc : c ∈ x.chunks.code) (hc' : c' ∈ x.chunks.code) : c.exit ∉ labelsOf c'.stmts := by
  have hown : ∀ c ∈ x.chunks.code, c.exit ∉ labelsOf c.stmts := by
    intro c hc hmem
    obtain ⟨d, s, s', hs, hmakes⟩ := h.exists_makes hc
    obtain ⟨body, hbody, hspans, -⟩ := h.spans hmakes
    rcases hspans.labels _ hmem with hmem | ⟨-, hne⟩
    · exact (h.between_of_holds (o := .body d.1.id) ⟨body, hbody, hmem⟩).false_of_le hspans.exit hs.2
    · exact hne rfl
  apply List.Pairwise.forall_of_forall_of_flip (R := fun c c' => c.exit ∉ labelsOf c'.stmts) hown _ _ hc hc'
  · apply h.pairwise_makes.imp
    rintro c c' ⟨d, d', s₁, s₂, s₃, s₄, hs₁, hmakes, hs₃, hmakes', -⟩
    obtain ⟨body, -, hspans, -⟩ := h.spans hmakes
    exact h.notMem_labels hspans.exit hs₁ (.inl hs₃) hmakes'
  · apply h.pairwise_makes.imp
    rintro c c' ⟨d, d', s₁, s₂, s₃, s₄, hs₁, hmakes, hs₃, hmakes', -⟩
    obtain ⟨body, -, hspans, -⟩ := h.spans hmakes'
    exact h.notMem_labels hspans.exit ((hs₁.trans hmakes.fit.2).trans hs₃) (.inr hs₃) hmakes

theorem exit_notMem_names (hc : c ∈ x.chunks.code) (hc' : c' ∈ x.chunks.code) {st : Ir.Stmt} (hst : st ∈ c'.stmts) :
    c.exit ∉ st.names := by
  intro hmem
  obtain ⟨d, s, s', hs, hmakes⟩ := h.exists_makes hc
  obtain ⟨d', _, _, -, hmakes'⟩ := h.exists_makes hc'
  obtain ⟨body, -, hspans, -⟩ := h.spans hmakes
  obtain ⟨body', -, hspans', hnames⟩ := h.spans hmakes'
  obtain ⟨n, hn, hle, -⟩ := hspans.exit
  exact Nat.not_le.mpr (hnames _ (hspans'.names st hst hmem) n hn) (Nat.le_trans hs.2 hle)

end Lowering.Of

/-- The chunks of every program that is lowered are closed and separate, and correspond to its functions. -/
theorem chunks_separate {x : Lowering} {src : String} (h : x.Of src) : x.Separate := by
  have hfit : ∀ c ∈ x.chunks.code, ∃ s, c.Fit s := by
    intro c hc
    obtain ⟨d, s, s', -, hmakes⟩ := h.exists_makes hc
    exact ⟨s', hmakes.fit.1⟩
  constructor
  case labels =>
    refine nodup_flatMap.mpr ⟨fun c hc => (hfit c hc).elim fun _ hfit => hfit.canonical.nodup, ?_⟩
    apply h.pairwise_makes.imp
    rintro c c' ⟨d, d', s₁, s₂, s₃, s₄, hs₁, hmakes, hs₃, hmakes', hne⟩
    exact h.disjoint_labels hs₁ hmakes hs₃ hmakes' hne
  case gotos => exact fun c hc => (hfit c hc).elim fun _ hfit => hfit.gotos
  case entry =>
    intro c hc
    obtain ⟨d, s, s', -, hmakes⟩ := h.exists_makes hc
    obtain ⟨body, -, hspans, -⟩ := h.spans hmakes
    exact hspans.head
  case exit =>
    intro c hc c' hc' st hst hmem
    have hlabels := h.exit_notMem_labels hc hc'
    rcases mem_append.mp hmem with hmem | hmem
    · rcases mem_append.mp hmem with hmem | hmem
      · exact hlabels (mem_filterMap.mpr ⟨st, hst, Option.mem_toList.mp hmem⟩)
      · exact (hfit c' hc').elim fun _ hfit => hlabels (hfit.gotos st hst hmem)
    · exact h.exit_notMem_names hc hc' hst hmem
  case strings =>
    intro id label content hstring c hc hmem
    obtain ⟨d, s, s', hs, hmakes⟩ := h.exists_makes hc
    cases h.owner_eq hs hmakes hmem (o := .string id) ⟨content, hstring⟩
  case frames =>
    intro id f hf c hc hmem
    obtain ⟨d, s, s', hs, hmakes⟩ := h.exists_makes hc
    obtain ⟨n, hn, hle, -⟩ := h.between_of_labels hs hmakes hmem
    exact Nat.not_le.mpr (h.frame_label hf hn) hle
  case temps =>
    apply h.pairwise_makes.imp
    rintro c c' ⟨d, d', s₁, s₂, s₃, s₄, hs₁, hmakes, hs₃, hmakes', hne⟩
    exact h.disjoint_temps hs₁ hmakes hs₃ hmakes' hne
  case fp =>
    intro c hc e hmem
    obtain ⟨_, hfit⟩ := hfit c hc
    exact (hfit.writes _ _ hmem).1 rfl
  case functions =>
    apply h.threaded.related.imp
    rintro _ _ ⟨_, _, hmakes⟩
    exact hmakes.frame
  case bodies => exact fun _ _ => Program.mem_bodies
  case once => exact h.formed.numbered.nodup_bodies
  case nested => exact fun _ _ _ _ hd hbody he hne hinner => Program.pair_sublist_bodies hd hbody he hne hinner

theorem nestedFunctions_separate : ∃ x : Lowering, x.Of nestedFunctions ∧ x.chunks.code.length = 2 ∧ x.Separate := by
  obtain ⟨c, hc⟩ := exists_compile_nestedFunctions
  obtain ⟨x, hx, -⟩ := exists_stages hc
  exact ⟨x.lowering, hx.lowering, hx.lowering.length_nestedFunctions, chunks_separate hx.lowering⟩

end MmixCompiler
