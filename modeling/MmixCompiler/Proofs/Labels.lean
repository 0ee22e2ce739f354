import MmixCompiler.Proofs.Mmix.Listing
import MmixCompiler.Proofs.Separation

/-! The labels of a listing. Those of data and code are different from each other: names at the top are declared once,
and fresh labels are drawn once. Only a name of the runtime can be among them, and only one that a program may
declare. -/

namespace MmixCompiler

open Mmix Ir Fresh List

variable {d : DataChunk} {label : Label} {name : String} {c : CodeChunk}

def CodeChunk.labels (c : CodeChunk) : List Label := c.frame.label :: (labelsOf c.stmts ++ [c.exit])

section
variable {r r' : Routine} {s s' : Supply} {ts : List Temp} {c : CodeChunk} {registers : Nat} {a : Routine.Allocated}

theorem Spills.labels (h : Spills r s ts r' s') : r'.labels = r.labels ∧ r'.entry = r.entry := by
  induction h with
  | nil => exact ⟨rfl, rfl⟩
  | cons _ _ hspill _ ih =>
    rw [ih.1, ih.2, Routine.labels, Routine.labels_of_spill hspill]
    obtain ⟨-, blocks, -, rfl⟩ := Routine.blocks_of_spill hspill
    exact ⟨rfl, rfl⟩

theorem CodeChunk.labels_of_select (h : Gives (c.select registers) s r s') :
    r.labels = c.labels ∧ r.entry = c.entry := by
  simp only [CodeChunk.select, Ir.Stmt.selectAll, gives_bind, gives_pure] at h
  obtain ⟨_, _, ⟨blocks, _, hmap, rfl, rfl⟩, rfl, rfl⟩ := h
  have hlabels := labels_of_chosen ((chosen_between hmap).2.imp fun _ _ h => h.imp fun _ h => h.imp fun _ h => h.2.2)
  exact ⟨by rw [Routine.labels, CodeChunk.labels, hlabels], rfl⟩

/-- Selection and allocation keep the labels of a chunk, and leave what can be written. -/
theorem CodeChunk.Fit.neat (hfit : c.Fit s) (hlabels : ∀ l ∈ c.labels, l.Plain) (hentry : c.entry.Plain)
    (h : c.BecomesFrom registers s a s') : a.routine.labels = c.labels ∧ a.routine.Neat ∧ s.temps ≤ s'.temps := by
  obtain ⟨r, s₁, hselect, hallocate⟩ := h
  obtain ⟨r₀, s₀, hselect₀, hr, -, -, hle⟩ := hfit.exists_routine registers
  cases hselect₀.symm.trans hselect
  obtain ⟨hle', -, regs, hcomplete⟩ := hr.complete hallocate
  obtain ⟨ts, r', hrounds, heq⟩ := spillRounds_of_rounds hallocate
  obtain ⟨hspilled, hentry'⟩ := (hrounds.spills hr.below).1.labels
  obtain ⟨hselected, hentry''⟩ := CodeChunk.labels_of_select hselect
  have hroutine : a.routine.labels = c.labels ∧ a.routine.entry = c.entry := by
    rw [heq]
    exact ⟨hspilled.trans hselected, hentry'.trans hentry''⟩
  refine ⟨hroutine.1, ⟨?_, ?_, hcomplete.wellFormed⟩, Nat.le_trans hle hle'⟩
  · rw [hroutine.1]
    exact hlabels
  · rw [hroutine.2]
    exact hentry

end

theorem Program.exists_data {p : Program} {l : Layout} {c : Code} {data : List DataChunk} (h : p.data l c = .ok data) :
    ∃ found, List.Forall₂ (fun n x => n.data l c = .ok x) (entered p.walk) found ∧ data = found.filterMap id := by
  obtain ⟨found, hfound, heq⟩ := bind_eq_ok.mp h
  obtain rfl : found.filterMap id = data := Except.ok.inj heq
  clear h heq
  replace hfound := mapM_eq_ok.mp hfound
  generalize p.walk = vs at hfound
  induction hfound with
  | nil => exact ⟨[], .nil, rfl⟩
  | @cons v x vs found hv _ ih =>
    obtain ⟨found', hforall, heq⟩ := ih
    cases v with
    | enter n => exact ⟨x :: found', .cons hv hforall, by rw [filterMap_cons, filterMap_cons, heq]⟩
    | leave n =>
      cases hv
      exact ⟨found', hforall, heq⟩

theorem DataChunk.labels_sublist (data : List DataChunk) :
    (data.flatMap DataChunk.labels).Sublist (data.map DataChunk.label) := by
  induction data with
  | nil => exact .refl _
  | cons d data ih =>
    rw [flatMap_cons, map_cons, DataChunk.labels]
    split
    · exact ih.cons _
    · exact ih.cons_cons _

theorem DataChunk.eq_of_mem_labels {l : Label} (h : l ∈ d.labels) : l = d.label := by
  unfold DataChunk.labels at h
  split at h
  · cases h
  · exact mem_singleton.mp h

theorem DataChunk.labels_zeros {size : Int} :
    (DataChunk.zeros label size).labels = if Word.size ≤ size then [label] else [] := by
  have hwords : (DataChunk.zeros label size).words = [] ↔ ¬Word.size ≤ size := by
    simp only [DataChunk.words, DataChunk.zeros, replicate_eq_nil_iff, Word.size, Int.tdiv_eq_ediv]
    split
    · omega
    · simp only [show Int.sign 8 = 1 from rfl]
      omega
  rw [DataChunk.labels]
  split
  · next h => rw [if_neg (hwords.mp h)]
  · next h => rw [if_pos (not_not.mp (mt hwords.mpr h))]; rfl

/-- The declaration takes a place in memory: a function has a body, and a variable is not empty. -/
def Decl.TakesPlace (a : Analysis) (d : Decl) : Prop :=
  d.body?.isSome ∨ d.HasRole .variable ∧ ∃ size, a.declBytes d = .ok size ∧ Word.size ≤ size

def Lowering.labels (x : Lowering) : List Label :=
  x.chunks.data.flatMap DataChunk.labels ++ x.chunks.code.flatMap CodeChunk.labels

namespace Lowering.Of

variable {x : Lowering} {src : String} (h : x.Of src)
include h

theorem eq_of_name {d e : Decl} (hd : d ∈ x.program.decls) (he : e ∈ x.program.decls) (hname : d.name = e.name) :
    d = e := by
  have hanalyze := h.analyze
  simp only [Program.analyze, bind_eq_ok] at hanalyze
  obtain ⟨b, hb, -⟩ := hanalyze
  exact inj_on_of_nodup_map (Program.bind_eq_ok_iff.mp hb).1 hd he hname

theorem data_eq : x.program.data x.planner.layout x.generator.code = .ok x.chunks.data := by
  have hchunks := h.chunks
  unfold Program.chunks at hchunks
  obtain ⟨data, hdata, hchunks⟩ := bind_eq_ok.mp hchunks
  split at hchunks
  · obtain ⟨heq, -⟩ := Prod.mk.inj (Except.ok.inj hchunks)
    rw [← heq]
    exact hdata
  · cases hchunks

theorem data_cases {n : Node} (hn : n.data x.planner.layout x.generator.code = .ok (some d)) :
    (∃ e ∈ x.program.decls, e.id = n.id ∧ e.HasRole .variable ∧ ∃ size, x.analysis.declBytes e = .ok size ∧
      d = .zeros (.named e.name) size) ∨
    ∃ label content, x.generator.code.strings[n.id]? = some (label, content) ∧ d = .string label content := by
  unfold Node.data at hn
  split at hn
  · next mark name type =>
    obtain ⟨access, haccess, hn⟩ := bind_eq_ok.mp hn
    split at hn
    · next label size =>
      cases hn
      obtain ⟨e, he, hid, hrole, rfl, hsize⟩ := (h.analyzed.planned h.layout).globals _ _ _ (orFault_eq_ok.mp haccess)
      exact .inl ⟨e, he, hid, hrole, size, hsize, rfl⟩
    · cases hn
  · next mark content =>
    obtain ⟨⟨label, content⟩, hstring, hn⟩ := bind_eq_ok.mp hn
    cases hn
    exact .inr ⟨label, content, orFault_eq_ok.mp hstring, rfl⟩
  · cases hn

theorem exists_node (hd : d ∈ x.chunks.data) :
    ∃ n, x.program.Has n ∧ n.data x.planner.layout x.generator.code = .ok (some d) := by
  obtain ⟨found, hfound, heq⟩ := Program.exists_data h.data_eq
  rw [heq, mem_filterMap] at hd
  obtain ⟨y, hy, rfl⟩ := hd
  obtain ⟨n, hn, hdata⟩ := exists_left_of_forall₂ hfound hy
  exact ⟨n, Program.has_of_mem_nodes hn, hdata⟩

theorem string_ne_named {id : NodeId} {content : String}
    (hstring : x.generator.code.strings[id]? = some (label, content)) : label ≠ .named name := by
  obtain ⟨n, rfl, -⟩ := h.between_of_holds (o := .string id) ⟨content, hstring⟩
  exact fun heq => by cases heq

theorem nodup_data : (x.chunks.data.map DataChunk.label).Nodup := by
  obtain ⟨found, hfound, heq⟩ := Program.exists_data h.data_eq
  have hids : (entered x.program.walk).Pairwise fun n m => n.id ≠ m.id := by
    have hnumbered : (x.program.levels.map fun q => q.2.id).Nodup := h.formed.numbered
    rw [← pairwise_map, x.program.entered_walk, map_map]
    exact hnumbered
  have hpairs := pairwise_of_forall₂ hfound hids
  rw [heq, List.Nodup, pairwise_map, pairwise_filterMap]
  refine hpairs.imp ?_
  rintro y y' ⟨n, -, m, -, hne, hn, hm⟩ d rfl d' rfl hlabel
  rcases h.data_cases hn with ⟨e, he, hid, -, _, -, rfl⟩ | ⟨label, content, hstring, rfl⟩ <;>
    rcases h.data_cases hm with ⟨e', he', hid', -, _, -, rfl⟩ | ⟨label', content', hstring', rfl⟩
  · -- names at the top are declared once
    obtain rfl := h.eq_of_name he he' (Label.named.inj hlabel)
    exact hne (hid.symm.trans hid')
  · exact h.string_ne_named hstring' hlabel.symm
  · exact h.string_ne_named hstring hlabel
  · -- a label belongs to one string
    obtain rfl : label = label' := hlabel
    exact hne (Owner.string.inj (h.draws.tidy.apart (.string n.id) (.string m.id) label ⟨_, hstring⟩ ⟨_, hstring'⟩))

theorem frame_cases {d : Decl × MmixCompiler.Expr} (hd : d ∈ x.program.bodies) {f : Frame}
    (hf : x.planner.layout.frames[d.1.id]? = some f) :
    d.1 ∈ x.program.decls ∧ f.label = .named d.1.name ∨ d.1 ∉ x.program.decls ∧ ∃ n, f.label = .fresh n := by
  obtain ⟨hhas, hbody⟩ := Program.mem_bodies.mp hd
  obtain ⟨φ, e, hid, hrecords⟩ := (h.analyzed.planned h.layout).frames _ _ hf
  obtain ⟨_, _, _, hframes, -⟩ := hrecords.frame
  obtain rfl : e = d.1 := Node.decl.inj (h.formed.numbered.eq_of_id hrecords.code.has hhas hid)
  have hnamed : f.label = .named d.1.name ↔ φ = [] := by
    simp [hframes.named, hframes.depth, hbody]
  have htop : φ = [] ↔ d.1 ∈ x.program.decls := by
    constructor
    · rintro rfl
      obtain ⟨e, he, heq⟩ := hrecords.code.top
      exact Node.decl.inj heq ▸ he
    · exact fun htop => (h.formed.numbered.nest_unique hrecords.nest (Program.mem_nests_decl htop) rfl).1
  rcases hframes.label with ⟨hlabel, -⟩ | ⟨hlabel, -⟩
  · exact .inl ⟨htop.mp (hnamed.mp hlabel), hlabel⟩
  · refine .inr ⟨fun hmem => ?_, _, hlabel⟩
    cases hlabel.symm.trans (hnamed.mpr (htop.mpr hmem))

theorem nodup_frames : (x.chunks.code.map fun c => c.frame.label).Nodup := by
  have hids : x.program.bodies.Pairwise fun d d' => d.1.id ≠ d'.1.id :=
    pairwise_map.mp h.formed.numbered.nodup_bodies
  rw [List.Nodup, pairwise_map]
  refine (pairwise_of_forall₂ h.threaded.related hids).imp ?_
  rintro c c' ⟨d, hd, d', hd', hne, ⟨_, _, hmakes⟩, ⟨_, _, hmakes'⟩⟩ hlabel
  rcases h.frame_cases hd hmakes.frame with ⟨htop, hname⟩ | ⟨-, n, hn⟩ <;>
    rcases h.frame_cases hd' hmakes'.frame with ⟨htop', hname'⟩ | ⟨-, n', hn'⟩
  · have heq := h.eq_of_name htop htop' (Label.named.inj (hname.symm.trans (hlabel.trans hname')))
    exact hne (congrArg Decl.id heq)
  · cases hname.symm.trans (hlabel.trans hn')
  · cases hn.symm.trans (hlabel.trans hname')
  · rw [hlabel] at hn
    exact hne ((h.analyzed.planned h.layout).labels _ _ _ _ n hmakes.frame hmakes'.frame (hlabel ▸ hn) hn)

theorem exists_fresh (hc : c ∈ x.chunks.code) {l : Label} (hl : l ∈ labelsOf c.stmts ++ [c.exit]) :
    ∃ n, l = .fresh n ∧ x.planner.supply.labels ≤ n := by
  obtain ⟨d, s, s', hs, hmakes⟩ := h.exists_makes hc
  rcases mem_append.mp hl with hl | hl
  · obtain ⟨n, hn, hle, -⟩ := h.between_of_labels hs hmakes hl
    exact ⟨n, hn, hle⟩
  · obtain ⟨body, -, hspans, -⟩ := h.spans hmakes
    obtain ⟨n, hn, hle, -⟩ := hspans.exit
    exact ⟨n, (mem_singleton.mp hl).trans hn, Nat.le_trans (Nat.le_trans h.draws.labels hs.2) hle⟩

theorem nodup_inner : (x.chunks.code.flatMap fun c => labelsOf c.stmts ++ [c.exit]).Nodup := by
  refine nodup_flatMap.mpr ⟨fun c hc => ?_, ?_⟩
  · have hexit := h.exit_notMem_labels hc hc
    refine List.Nodup.append (h.fit hc).1.canonical.nodup (nodup_singleton _) fun l hl hl' => hexit ?_
    exact mem_singleton.mp hl' ▸ hl
  · refine h.pairwise_makes.imp_of_mem ?_
    rintro c c' hc hc' ⟨d, d', s₁, s₂, s₃, s₄, hs₁, hmakes, hs₃, hmakes', hne⟩ l hl hl'
    simp only [mem_append, mem_singleton] at hl hl'
    rcases hl with hl | rfl <;> rcases hl' with hl' | hl'
    · exact h.disjoint_labels hs₁ hmakes hs₃ hmakes' hne hl hl'
    · exact h.exit_notMem_labels hc' hc (hl' ▸ hl)
    · exact h.exit_notMem_labels hc hc' hl'
    · obtain ⟨body, -, hspans, -⟩ := h.spans hmakes
      obtain ⟨body', -, hspans', -⟩ := h.spans hmakes'
      exact hspans.exit.false_of_le (hl' ▸ hspans'.exit) hs₃.2

theorem string_notMem {id : NodeId} {content : String}
    (hstring : x.generator.code.strings[id]? = some (label, content)) (hc : c ∈ x.chunks.code) :
    label ∉ c.labels := by
  obtain ⟨d, s, s', hs, hmakes⟩ := h.exists_makes hc
  have hbetween := h.between_of_holds (o := .string id) ⟨content, hstring⟩
  intro hmem
  rcases mem_cons.mp hmem with hframe | hmem
  · obtain ⟨n, hn, hle, -⟩ := hbetween
    exact Nat.not_le.mpr (h.frame_label hmakes.frame (hframe.symm.trans hn)) hle
  · rcases mem_append.mp hmem with hmem | hmem
    · cases h.owner_eq hs hmakes hmem (o := .string id) ⟨content, hstring⟩
    · obtain ⟨body, -, hspans, -⟩ := h.spans hmakes
      exact hbetween.false_of_le (mem_singleton.mp hmem ▸ hspans.exit) hs.2

/-- The functions with a body at the top are those whose chunks are named, and no label in their chunks is. -/
theorem named_mem_code : .named name ∈ x.chunks.code.flatMap CodeChunk.labels ↔
    ∃ d ∈ x.program.decls, d.name = name ∧ d.body?.isSome := by
  constructor
  · intro hmem
    obtain ⟨c, hc, hmem⟩ := mem_flatMap.mp hmem
    obtain ⟨d, hd, _, _, hmakes⟩ := exists_left_of_forall₂ h.threaded.related hc
    rcases mem_cons.mp hmem with hframe | hmem
    · rcases h.frame_cases hd hmakes.frame with ⟨htop, hname⟩ | ⟨-, n, hn⟩
      · refine ⟨d.1, htop, (Label.named.inj (hframe.trans hname)).symm, ?_⟩
        rw [(Program.mem_bodies.mp hd).2, Option.isSome_some]
      · cases hframe.trans hn
    · obtain ⟨n, hn, -⟩ := h.exists_fresh hc hmem
      cases hn
  · rintro ⟨d, hd, rfl, hbody⟩
    obtain ⟨body, hbody⟩ := Option.isSome_iff_exists.mp hbody
    have hmem : (d, body) ∈ x.program.bodies :=
      Program.mem_bodies.mpr ⟨Program.InCode.has (k := 0) ⟨d, hd, .refl⟩, hbody⟩
    obtain ⟨c, hc, _, _, hmakes⟩ := exists_right_of_forall₂ h.threaded.related hmem
    refine mem_flatMap.mpr ⟨c, hc, mem_cons.mpr (.inl ?_)⟩
    rcases h.frame_cases hmem hmakes.frame with ⟨-, hname⟩ | ⟨htop, -⟩
    · exact hname.symm
    · exact absurd hd htop

theorem nodup_labels : x.labels.Nodup := by
  have hcode : (x.chunks.code.flatMap CodeChunk.labels).Nodup := by
    refine (map_append_flatMap_perm _ _ _).nodup_iff.mp (h.nodup_frames.append h.nodup_inner fun l hl hl' => ?_)
    obtain ⟨c, hc, rfl⟩ := mem_map.mp hl
    obtain ⟨c', hc', hl'⟩ := mem_flatMap.mp hl'
    obtain ⟨d, _, _, -, hmakes⟩ := h.exists_makes hc
    obtain ⟨n, hn, hle⟩ := h.exists_fresh hc' hl'
    exact Nat.not_le.mpr (h.frame_label hmakes.frame hn) hle
  refine ((DataChunk.labels_sublist _).nodup h.nodup_data).append hcode fun l hl hl' => ?_
  obtain ⟨d, hd, rfl⟩ := mem_map.mp ((DataChunk.labels_sublist _).subset hl)
  obtain ⟨n, -, hn⟩ := h.exists_node hd
  rcases h.data_cases hn with ⟨e, he, -, hrole, _, -, rfl⟩ | ⟨label, content, hstring, rfl⟩
  · -- a variable is no function
    obtain ⟨f, hf, hname, hbody⟩ := h.named_mem_code.mp hl'
    obtain rfl := h.eq_of_name he hf hname.symm
    cases e with
    | typed | proto => cases hbody
    | function => exact hrole
  · obtain ⟨c, hc, hl'⟩ := mem_flatMap.mp hl'
    exact h.string_notMem hstring hc hl'

theorem zeros_mem_data {d : Decl} (hd : d ∈ x.program.decls) (hrole : d.HasRole .variable) {size : Int}
    (hsize : x.analysis.declBytes d = .ok size) : .zeros (.named d.name) size ∈ x.chunks.data := by
  have hcode : x.program.InCode (0, .decl d) := ⟨d, hd, .refl⟩
  obtain ⟨mark, name, type, rfl⟩ : ∃ mark name type, d = .typed mark .variable name type := by
    cases d with
    | typed mark role name type => exact ⟨mark, name, type, by rw [show role = .variable from hrole]⟩
    | proto | function => exact hrole.elim
  obtain ⟨access, haccess, hsuits⟩ := h.laidOut.accesses 0 _ hcode rfl
  cases access with
  | relative => exact absurd hsuits.2 (Nat.lt_irrefl 0)
  | absolute label bytes =>
    obtain ⟨-, rfl⟩ := hsuits
    obtain ⟨e, he, hid, -, hname, hbytes⟩ := (h.analyzed.planned h.layout).globals _ _ _ haccess
    obtain rfl := h.eq_of_name hd he (Label.named.inj hname)
    obtain rfl : size = bytes := Except.ok.inj (hsize.symm.trans hbytes)
    obtain ⟨found, hfound, heq⟩ := Program.exists_data h.data_eq
    obtain ⟨y, hy, hdata⟩ := exists_right_of_forall₂ hfound (mem_entered.mpr (Program.enter_mem_walk.mpr hcode.has))
    rw [Node.data, Layout.access, orFault_eq_ok.mpr haccess] at hdata
    cases hdata
    rw [heq]
    exact mem_filterMap.mpr ⟨_, hy, rfl⟩

theorem named_mem_labels : .named name ∈ x.labels ↔ ∃ d ∈ x.program.decls, d.name = name ∧ d.TakesPlace x.analysis := by
  rw [labels, mem_append, h.named_mem_code]
  constructor
  · rintro (hmem | ⟨d, hd, hname, hbody⟩)
    · obtain ⟨d, hd, hmem⟩ := mem_flatMap.mp hmem
      obtain ⟨n, -, hn⟩ := h.exists_node hd
      rcases h.data_cases hn with ⟨e, he, -, hrole, size, hsize, rfl⟩ | ⟨label, content, hstring, rfl⟩
      · rw [DataChunk.labels_zeros] at hmem
        split at hmem
        · next hle => exact ⟨e, he, (Label.named.inj (mem_singleton.mp hmem)).symm, .inr ⟨hrole, size, hsize, hle⟩⟩
        · cases hmem
      · exact absurd (DataChunk.eq_of_mem_labels hmem).symm (h.string_ne_named hstring)
    · exact ⟨d, hd, hname, .inl hbody⟩
  · rintro ⟨d, hd, rfl, hbody | ⟨hrole, size, hsize, hle⟩⟩
    · exact .inr ⟨d, hd, rfl, hbody⟩
    · refine .inl (mem_flatMap.mpr ⟨_, h.zeros_mem_data hd hrole hsize, ?_⟩)
      rw [DataChunk.labels_zeros, if_pos hle]
      exact mem_singleton_self _

theorem identifier_of_named (hmem : .named name ∈ x.labels) : Identifier name := by
  obtain ⟨d, hd, rfl, -⟩ := h.named_mem_labels.mp hmem
  exact h.formed.identifier (k := 0) ⟨d, hd, .refl⟩

theorem plain_data (hd : d ∈ x.chunks.data) : d.label.Plain := by
  obtain ⟨n, -, hn⟩ := h.exists_node hd
  rcases h.data_cases hn with ⟨e, he, -, -, _, -, rfl⟩ | ⟨label, content, hstring, rfl⟩
  · exact (h.formed.identifier (k := 0) ⟨e, he, .refl⟩).plain
  · obtain ⟨m, rfl, -⟩ := h.between_of_holds (o := .string n.id) ⟨content, hstring⟩
    trivial

theorem plain_labels (hc : c ∈ x.chunks.code) : (∀ l ∈ c.labels, l.Plain) ∧ c.entry.Plain := by
  obtain ⟨d, s, s', -, hmakes⟩ := h.exists_makes hc
  have hinner : ∀ l ∈ labelsOf c.stmts ++ [c.exit], l.Plain := by
    intro l hl
    obtain ⟨n, rfl, -⟩ := h.exists_fresh hc hl
    trivial
  refine ⟨forall_mem_cons.mpr ⟨(h.analyzed.plain_layout h.laidOut).frames _ _ hmakes.frame, hinner⟩, hinner _ ?_⟩
  obtain ⟨body, -, hspans, -⟩ := h.spans hmakes
  exact mem_append_left _ (mem_filterMap.mpr ⟨_, mem_of_mem_head? hspans.head, rfl⟩)

end Lowering.Of

/-- The labels that every listing has, apart from the one that a program may declare too. -/
def reservedLabels : List String := ["OutData", "_new", "_del", "Main"]

/-- No program declares them: they are not the text of a label, or that of a reserved word. -/
theorem Lowering.Of.reserved_notMem {x : Lowering} {src : String} (h : x.Of src)
    (hname : name ∈ reservedLabels) : name ∉ x.labels.map Label.text := by
  intro hmem
  obtain ⟨l, hl, rfl⟩ := mem_map.mp hmem
  have hnew : ∀ word : Keyword, l ≠ .named word.text := by
    rintro word rfl
    exact absurd (h.identifier_of_named hl).free (by cases word <;> decide)
  have hhead : l.text.toList.head? = some '_' ∨ l.text.toList.head? = some 'L' := by
    cases l <;> simp [Label.text]
  simp only [reservedLabels, mem_cons, not_mem_nil, or_false] at hname
  rcases hname with heq | heq | heq | heq
  · exact absurd hhead (by rw [heq]; decide)
  · exact hnew .new (Label.text_injective heq)
  · exact hnew .del (Label.text_injective heq)
  · exact absurd hhead (by rw [heq]; decide)

theorem definedLabels_compile {src : String} {registers : Nat} {c : Compilation}
    (h : (compile src registers).1 = .ok c) : ∃ x : Lowering, x.Of src ∧
      (definedLabels c.listing).Perm ("_putChar" :: (reservedLabels ++ x.labels.map Label.text)) := by
  obtain ⟨x, hx, s, hthread⟩ := exists_stages h
  have hlowering := hx.lowering
  have hroutines : List.Forall₂ (fun c a => a.routine.labels = c.labels ∧ a.routine.Neat) x.chunks.code x.routines := by
    have hstep : Threaded (fun c _ a _ => a.routine.labels = c.labels ∧ a.routine.Neat) x.chunks.code x.supply
        x.routines s := by
      refine (hthread.imp (I := fun s => x.supply.temps ≤ s.temps) (Nat.le_refl _) fun c hc s a s' hs ha => ?_).1
      obtain ⟨hlabels, hentry⟩ := hlowering.plain_labels hc
      obtain ⟨heq, hneat, hle⟩ := CodeChunk.Fit.neat ((hlowering.fit hc).1.mono hs) hlabels hentry ha
      exact ⟨Nat.le_trans hs hle, heq, hneat⟩
    exact hstep.related.imp fun _ _ ⟨_, _, h⟩ => h
  have hcode : (x.routines.map (·.routine)).flatMap Routine.labels = x.chunks.code.flatMap CodeChunk.labels := by
    have hmap : x.chunks.code.map CodeChunk.labels = x.routines.map fun a => a.routine.labels := by
      rw [← forall₂_eq_eq_eq, forall₂_map_left_iff, forall₂_map_right_iff]
      exact hroutines.imp fun _ _ h => h.1.symm
    rw [flatMap_def, flatMap_def, hmap, map_map]
    rfl
  have hneat : ∀ r ∈ x.routines.map (·.routine), r.Neat := by
    intro r hr
    obtain ⟨a, ha, rfl⟩ := mem_map.mp hr
    obtain ⟨_, -, -, hneat⟩ := exists_left_of_forall₂ hroutines ha
    exact hneat
  refine ⟨x.lowering, hlowering, ?_⟩
  rw [definedLabels_listing (fun d hd => hlowering.plain_data hd) hneat hx.listing, hcode, Lowering.labels,
    map_append]
  exact (perm_middle.append_left ["OutData", "_putChar", "_new", "_del"]).trans (List.Perm.swap ..)

/-- Every label of a listing is defined once, unless the program defines a name of the runtime. The only such name that
it can declare is `putChar`. -/
theorem labels_defined_once (src : String) (registers : Nat) (c : Compilation)
    (hc : (compile src registers).1 = .ok c) :
    ∃ p a, (Program.parse src).1 = .ok p ∧ p.analyze = .ok a ∧ ((definedLabels c.listing).erase "_putChar").Nodup ∧
      ((definedLabels c.listing).Nodup ↔ ∀ d ∈ p.decls, d.name = "putChar" → ¬d.TakesPlace a) := by
  obtain ⟨x, hx, hperm⟩ := definedLabels_compile hc
  have hothers : (reservedLabels ++ x.labels.map Label.text).Nodup := by
    refine List.Nodup.append (by decide) (hx.nodup_labels.map Label.text_injective) fun name hname => ?_
    exact hx.reserved_notMem hname
  refine ⟨x.program, x.analysis, hx.parse, hx.analyze, ?_, ?_⟩
  · have herase := hperm.erase "_putChar"
    rw [erase_cons_head] at herase
    exact herase.nodup_iff.mpr hothers
  · have hreserved : "_putChar" ∉ reservedLabels := by decide
    rw [hperm.nodup_iff, nodup_cons, and_iff_left hothers, mem_append, or_iff_right hreserved]
    rw [show "_putChar" = (Label.named "putChar").text from rfl, mem_map_of_injective Label.text_injective,
      hx.named_mem_labels]
    push Not
    rfl

theorem nestedFunctions_labelled_once : ∃ c, (compile nestedFunctions 2).1 = .ok c ∧
    (definedLabels c.listing).Nodup := by
  obtain ⟨c, hc⟩ := exists_compile_nestedFunctions
  obtain ⟨p, a, hp, -, -, hiff⟩ := labels_defined_once nestedFunctions 2 c hc
  refine ⟨c, hc, hiff.mpr fun d hd hname => ?_⟩
  have hmem : d.name ∈ p.decls.map Decl.name := mem_map_of_mem hd
  rw [(parse_nestedFunctions hp).2, hname] at hmem
  exact absurd hmem (by decide)

/-- A function with a name of the runtime. -/
def ownPutChar : String := "fun putChar(c: char): void = none; fun main(): int = 0;"

theorem ownPutChar_defined_twice : ∃ c, (compile ownPutChar 2).1 = .ok c ∧ ¬(definedLabels c.listing).Nodup := by
  obtain ⟨c, hc⟩ : ∃ c, (compile ownPutChar 2).1 = .ok c := exists_compile_of_isSome (Nat.le_refl 2) (by decide +kernel)
  obtain ⟨x, hx, hperm⟩ := definedLabels_compile hc
  have hdeclared : (Program.parse ownPutChar).1.toOption.any fun p =>
      p.decls.any fun d => d.name == "putChar" && d.body?.isSome := by
    decide +kernel
  have hmem : .named "putChar" ∈ x.labels := by
    rw [hx.named_mem_labels]
    rw [hx.parse] at hdeclared
    obtain ⟨d, hd, hname⟩ := any_eq_true.mp hdeclared
    rw [Bool.and_eq_true, beq_iff_eq] at hname
    exact ⟨d, hd, hname.1, .inl hname.2⟩
  refine ⟨c, hc, fun hnodup => ?_⟩
  have hnotMem := (nodup_cons.mp (hperm.nodup_iff.mp hnodup)).1
  exact hnotMem (mem_append_right _ (mem_map_of_mem hmem))

end MmixCompiler
