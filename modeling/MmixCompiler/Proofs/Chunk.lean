import MmixCompiler.Proofs.Ir.Canonical
import MmixCompiler.Proofs.Ir.Generating

/-! The chunks of a program that has code. Every function has a chunk, which selection and allocation can work on. -/

namespace MmixCompiler

open Fresh Ir

/-- A supply from which more has been taken. -/
def Supply.Before (s s' : Supply) : Prop := s.temps ≤ s'.temps ∧ s.labels ≤ s'.labels

theorem Supply.Before.refl (s : Supply) : s.Before s := ⟨Nat.le_refl _, Nat.le_refl _⟩

theorem Supply.Before.trans {s s' s'' : Supply} (h : s.Before s') (h' : s'.Before s'') : s.Before s'' :=
  ⟨Nat.le_trans h.1 h'.1, Nat.le_trans h.2 h'.2⟩

/-- A label whose text is made of letters, digits and underscores. -/
def Label.Plain : Label → Prop
  | .named name => PlainName name
  | .fresh _ => True

/-- Code that selection and allocation can work on, with temporaries out of a supply. -/
structure CodeChunk.Fit (c : CodeChunk) (s : Supply) : Prop where
  canonical : Canonical c.stmts
  labels : ∀ l ∈ labelsOf c.stmts, ∃ n, l = .fresh n
  gotos : ∀ st ∈ c.stmts, st.gotos ⊆ labelsOf c.stmts
  fp : c.frame.fp < s.temps
  temps : ∀ st ∈ c.stmts, ∀ t ∈ st.temps, t < s.temps
  writes : ∀ t e, .move (.temp t) e ∈ c.stmts → t ≠ c.frame.fp ∧ t ∉ e.temps
  names : ∀ st ∈ c.stmts, ∀ l ∈ st.names, l.Plain

theorem CodeChunk.Fit.mono {c : CodeChunk} {s s' : Supply} (h : c.Fit s) (hs : s.temps ≤ s'.temps) : c.Fit s' :=
  ⟨h.canonical, h.labels, h.gotos, Nat.lt_of_lt_of_le h.fp hs,
    fun st hst t ht => Nat.lt_of_lt_of_le (h.temps st hst t ht) hs, h.writes, h.names⟩

structure Frame.Takes (f : Frame) (body : Ir.Expr) (s : Supply) : Prop where
  structured : body.Structured
  nodup : body.labels.Nodup
  labels : ∀ x ∈ body.labels, ∃ n < s.labels, x = .fresh n
  temps : ∀ t ∈ body.temps, t = f.fp
  names : ∀ l ∈ body.names, l.Plain
  apart : f.fp ≠ f.rv
  fp : f.fp < s.temps
  rv : f.rv < s.temps

theorem Frame.Takes.mono {f : Frame} {body : Ir.Expr} {s s' : Supply} (h : f.Takes body s) (hs : s.Before s') :
    f.Takes body s' where
  structured := h.structured
  nodup := h.nodup
  labels x hx := (h.labels x hx).imp fun _ hx => ⟨Nat.lt_of_lt_of_le hx.1 hs.2, hx.2⟩
  temps := h.temps
  names := h.names
  apart := h.apart
  fp := Nat.lt_of_lt_of_le h.fp hs.1
  rv := Nat.lt_of_lt_of_le h.rv hs.1

/-- The statements of a chunk: the code of the body between the entry label and the store of the result. -/
def Frame.stmts (f : Frame) (entry : Label) (code : List Ir.Stmt) (last : Ir.Expr) : List Ir.Stmt :=
  .label entry :: (code ++ [.move (.temp f.rv) last] ++ [.move (.mem (.temp f.fp)) (.temp f.rv)])

section
variable {f : Frame} {entry : Label} {code : List Ir.Stmt} {last : Ir.Expr}

theorem Frame.mem_stmts {st : Ir.Stmt} : st ∈ f.stmts entry code last ↔ st = .label entry ∨ st ∈ code ∨
    st = .move (.temp f.rv) last ∨ st = .move (.mem (.temp f.fp)) (.temp f.rv) := by
  simp [Frame.stmts]

theorem Frame.labelsOf_stmts : labelsOf (f.stmts entry code last) = entry :: labelsOf code := by
  simp [Frame.stmts, labelsOf, List.filterMap_cons, Stmt.label?]

end

section
variable {f : Frame} {body last : Ir.Expr} {s s' : Supply} {code : List Ir.Stmt} {c : CodeChunk}

/-- The supply after the labels of entry and exit are taken. -/
def Supply.entered (s : Supply) : Supply := ⟨s.temps, s.labels + 2⟩

theorem gives_chunk : Gives (f.chunk body) s c s' ↔ ∃ code last, Gives body.flatten s.entered (code, last) s' ∧
    c = ⟨f, f.stmts (.fresh s.labels) code last, .fresh s.labels, .fresh (s.labels + 1)⟩ := by
  simp only [Frame.chunk, Stmt.flatten, intoTemp, gives_bind, gives_label, gives_pure]
  constructor
  · rintro ⟨_, _, ⟨rfl, rfl⟩, _, _, ⟨rfl, rfl⟩, _, _, ⟨⟨code, last⟩, _, hbody, rfl, rfl⟩, _, _,
      ⟨_, _, ⟨rfl, rfl⟩, _, _, ⟨rfl, rfl⟩, rfl, rfl⟩, rfl, rfl⟩
    exact ⟨code, last, hbody, rfl⟩
  · rintro ⟨code, last, hbody, rfl⟩
    exact ⟨_, _, ⟨rfl, rfl⟩, _, _, ⟨rfl, rfl⟩, _, _, ⟨(code, last), _, hbody, rfl, rfl⟩, _, _,
      ⟨_, _, ⟨rfl, rfl⟩, _, _, ⟨rfl, rfl⟩, rfl, rfl⟩, rfl, rfl⟩

theorem Frame.Takes.fit (h : f.Takes body s) (hlaid : Laid s.entered s' body.labels code)
    (hexpr : FlatExpr body s.entered s' code last) (exit : Label) :
    CodeChunk.Fit ⟨f, f.stmts (.fresh s.labels) code last, .fresh s.labels, exit⟩ s' := by
  obtain ⟨⟨hop, htemps, hnames⟩, hflat⟩ := hexpr
  have hstays := Expr.Structured.stays body h.structured
  have hsupply : s.temps ≤ s'.temps := hflat.supply
  -- Temporaries of the code are the frame pointer's, or fresh; so none of them takes the result.
  have hknown : ∀ t, Known body.temps s.entered s' t → t < s'.temps ∧ t ≠ f.rv := by
    rintro t (ht | ⟨hle, hlt⟩)
    · obtain rfl := h.temps t ht
      exact ⟨Nat.lt_of_lt_of_le h.fp hsupply, h.apart⟩
    · exact ⟨hlt, Nat.ne_of_gt (Nat.lt_of_lt_of_le h.rv hle)⟩
  have hlabels : ∀ l ∈ labelsOf code, l ∈ body.labels ∨ ∃ n, s.labels + 2 ≤ n ∧ l = .fresh n := by
    intro l hl
    refine (List.mem_append.mp (hlaid.labels.subset hl)).imp_right fun hl => ?_
    obtain ⟨n, hn, rfl⟩ := List.mem_map.mp hl
    exact ⟨n, (List.mem_range'_1.mp hn).1, rfl⟩
  have hfalls : Falls (f.stmts (.fresh s.labels) code last) := by
    refine Falls.append (a := [_]) (.single (by simp)) ((hflat.falls.append (.single ?_)).append (.single ?_)) <;> simp
  refine ⟨⟨?_, ?_, hfalls⟩, ?_, ?_, Nat.lt_of_lt_of_le h.fp hsupply, ?_, ?_, ?_⟩
  · intro st hst
    rcases Frame.mem_stmts.mp hst with rfl | hst | rfl | rfl
    · trivial
    · exact hflat.forms st hst
    · exact hop
    · simp [Stmt.Canonical]
  · rw [Frame.labelsOf_stmts]
    refine List.nodup_cons.mpr ⟨fun hmem => ?_, hlaid.nodup h.nodup fun n hn => ?_⟩
    · rcases hlabels _ hmem with hl | ⟨n, hn, heq⟩
      · obtain ⟨n, hlt, heq⟩ := h.labels _ hl
        cases heq
        exact Nat.lt_irrefl _ hlt
      · cases heq
        omega
    · obtain ⟨m, hlt, heq⟩ := h.labels _ hn
      cases heq
      exact Nat.lt_of_lt_of_le hlt (Nat.le_add_right ..)
  · intro l hl
    rw [Frame.labelsOf_stmts] at hl
    rcases List.mem_cons.mp hl with rfl | hl
    · exact ⟨_, rfl⟩
    · rcases hlabels l hl with hl | ⟨n, -, heq⟩
      · obtain ⟨n, -, heq⟩ := h.labels l hl
        exact ⟨n, heq⟩
      · exact ⟨n, heq⟩
  · intro st hst l hl
    rw [Frame.labelsOf_stmts]
    rcases Frame.mem_stmts.mp hst with rfl | hst | rfl | rfl
    · cases hl
    · rcases hflat.gotos st hst l hl with ⟨u, hu, hlu⟩ | hl
      · exact List.mem_cons_of_mem _ (hlaid.labels.symm.subset (List.mem_append_left _ ((hstays u hu).1 hlu)))
      · exact List.mem_cons_of_mem _ hl
    · cases hl
    · cases hl
  · intro st hst t ht
    rcases Frame.mem_stmts.mp hst with rfl | hst | rfl | rfl
    · cases ht
    · exact (hknown t (hflat.temps st hst t ht)).1
    · rcases List.mem_append.mp ht with ht | ht
      · exact List.mem_singleton.mp ht ▸ Nat.lt_of_lt_of_le h.rv hsupply
      · exact (hknown t (htemps t ht)).1
    · have : t = f.fp ∨ t = f.rv := by simpa [Stmt.temps, Expr.temps] using ht
      rcases this with rfl | rfl
      · exact Nat.lt_of_lt_of_le h.fp hsupply
      · exact Nat.lt_of_lt_of_le h.rv hsupply
  · intro t e hmove
    rcases Frame.mem_stmts.mp hmove with hmove | hmove | hmove | hmove
    · cases hmove
    · rcases hflat.writes t e hmove with ⟨src, hsrc⟩ | ⟨hle, hreads⟩
      · obtain ⟨address, haddress⟩ := (hstays _ hsrc).2 _ src rfl
        cases haddress
      · have hlt : f.fp < t := Nat.lt_of_lt_of_le h.fp hle
        refine ⟨Nat.ne_of_gt hlt, fun ht => ?_⟩
        rcases hreads t ht with ht | ⟨-, ht⟩
        · exact Nat.ne_of_gt hlt (h.temps t ht)
        · exact Nat.lt_irrefl t ht
    · cases hmove
      exact ⟨h.apart.symm, fun ht => (hknown _ (htemps _ ht)).2 rfl⟩
    · cases hmove
  · intro st hst l hl
    rcases Frame.mem_stmts.mp hst with rfl | hst | rfl | rfl
    · cases hl
    · exact h.names l (hflat.names st hst hl)
    · exact h.names l (hnames hl)
    · cases hl

theorem Frame.Takes.exists_chunk (h : f.Takes body s) :
    ∃ c s', Gives (f.chunk body) s c s' ∧ c.frame = f ∧ c.Fit s' ∧ s.Before s' := by
  obtain ⟨code, last, s', hgives, hlaid⟩ := body.exists_flatten h.structured s.entered
  exact ⟨_, s', gives_chunk.mpr ⟨code, last, hgives, rfl⟩, rfl, h.fit hlaid (body.flat hgives) _, hlaid.temps,
    Nat.le_trans (Nat.le_add_right ..) hlaid.numbers⟩

end

/-- The labels of functions and variables are made of letters, digits and underscores. -/
structure Layout.Plain (l : Layout) : Prop where
  frames : ∀ (id : NodeId) f, l.frames[id]? = some f → f.label.Plain
  accesses : ∀ (id : NodeId) label size, l.accesses[id]? = some (.absolute label size) → label.Plain

/-- The temporaries and names in the code of a function: its only temporary is the frame pointer's. -/
structure Frame.Owns (f : Frame) (ts : List Temp) (ls : List Label) : Prop where
  temps : ∀ t ∈ ts, t = f.fp
  names : ∀ x ∈ ls, x.Plain

section
variable {f : Frame}

namespace Frame.Owns

variable {ts us : List Temp} {ls ks : List Label}

theorem nil : f.Owns [] [] := ⟨by simp, by simp⟩

theorem append (h : f.Owns ts ls) (h' : f.Owns us ks) : f.Owns (ts ++ us) (ls ++ ks) where
  temps t ht := (List.mem_append.mp ht).elim (h.temps t) (h'.temps t)
  names x hx := (List.mem_append.mp hx).elim (h.names x) (h'.names x)

theorem call (h : f.Owns ts ls) {l : Label} (hl : l.Plain) : f.Owns ts (l :: ls) where
  temps := h.temps
  names := List.forall_mem_cons.mpr ⟨hl, h.names⟩

end Frame.Owns

def Frame.Formed (f : Frame) : Translation → Prop
  | .value _ c | .address _ c => c.Structured ∧ f.Owns c.temps c.names
  | .values _ cs => Expr.StructuredAll cs ∧ f.Owns (Expr.tempsAll cs) (Expr.namesAll cs)
  | .stmt _ c => (∀ targets, c.Structured targets) ∧ f.Owns c.temps c.names
  | .stmts _ cs => (∀ targets, Stmt.StructuredAll targets cs) ∧ f.Owns (Stmt.tempsAll cs) (Stmt.namesAll cs)
  | .bodies _ => True

theorem Frame.structured_link (f : Frame) (n : Nat) :
    (f.link n).Structured ∧ f.Owns (f.link n).temps (f.link n).names := by
  induction n with
  | zero => exact ⟨trivial, by simp [Frame.link, Expr.temps], by simp [Frame.link, Expr.names]⟩
  | succ n ih => exact ih

theorem Access.structured_address {x : Access} {name : String} {position : Position} {c : Ir.Expr}
    (hx : ∀ label size, x = .absolute label size → label.Plain) (h : x.address f name position = .ok c) :
    c.Structured ∧ f.Owns c.temps c.names := by
  obtain ⟨label, size, rfl, rfl⟩ | ⟨n, offset, rfl⟩ := Access.address_cases h
  · exact ⟨trivial, Frame.Owns.nil.call (hx label size rfl)⟩
  · obtain ⟨hlink, howns⟩ := f.structured_link n
    exact ⟨⟨hlink, trivial⟩, howns.append .nil⟩

theorem Frame.structured_linkTo {callee : Frame} {c : Ir.Expr} (h : f.linkTo callee = .ok c) :
    c.Structured ∧ f.Owns c.temps c.names := by
  obtain rfl | ⟨n, rfl⟩ := Frame.linkTo_cases h
  · exact ⟨trivial, .nil⟩
  · exact f.structured_link n

end

theorem Coded.formed {a : Analysis} {l : Layout} {code : Code} {bound : Nat} {f : Frame} {t : Translation}
    (hl : l.Plain) (h : Coded a l code bound f t) : f.Formed t := by
  induction h with
  | number => exact ⟨trivial, .nil⟩
  | string => exact ⟨trivial, Frame.Owns.nil.call trivial⟩
  | load _ ih | deref _ _ ih | plus _ _ ih | minus _ _ ih | not _ _ ih | addr _ _ ih | noBody _ _ ih => exact ih
  | name _ hx hc => exact Access.structured_address (fun label size heq => hl.accesses _ _ _ (heq ▸ hx)) hc
  | index _ _ _ _ _ iharray ihindex =>
    exact ⟨⟨iharray.1, ihindex.1, trivial⟩, iharray.2.append (ihindex.2.append .nil)⟩
  | field _ _ _ _ _ ih => exact ⟨⟨ih.1, trivial⟩, ih.2.append .nil⟩
  | call _ hcallee hlink _ _ ih =>
    obtain ⟨hstructured, howns⟩ := Frame.structured_linkTo hlink
    exact ⟨⟨hstructured, ih.1⟩, (howns.append ih.2).call (hl.frames _ _ hcallee)⟩
  | binary _ _ _ ihl ihr => exact ⟨⟨ihl.1, ihr.1⟩, ihl.2.append ihr.2⟩
  | cast _ _ _ ih =>
    simp only [Frame.Formed]
    split
    · exact ⟨⟨ih.1, trivial⟩, ih.2.append .nil⟩
    · exact ih
  | new => exact ⟨⟨trivial, trivial, trivial⟩, Frame.Owns.nil.call (List.all_eq_true.mp (by decide))⟩
  | del _ _ ih =>
    exact ⟨⟨trivial, ih.1, trivial⟩, (Frame.Owns.nil.append (ih.2.append .nil)).call (List.all_eq_true.mp (by decide))⟩
  | block _ _ _ _ _ ihs ih => exact ⟨⟨ihs.1 _, ih.1⟩, ihs.2.append ih.2⟩
  | noValues => exact ⟨trivial, .nil⟩
  | noStmts => exact ⟨fun _ => trivial, .nil⟩
  | values _ _ ih ihs => exact ⟨⟨ih.1, ihs.1⟩, ih.2.append ihs.2⟩
  | eval _ ih => exact ⟨fun _ => ih.1, ih.2⟩
  | assign _ _ ihdst ihsrc => exact ⟨fun _ => ⟨ihdst.1, ihsrc.1⟩, ihdst.2.append ihsrc.2⟩
  | cond _ _ _ _ ih ihyes ihno =>
    refine ⟨fun _ => ?_, ?_⟩
    · simp [Stmt.Structured, Stmt.StructuredAll, labelsOf, Stmt.label?, ih.1, ihyes.1, ihno.1]
    · simpa [Stmt.temps, Stmt.tempsAll, Stmt.names, Stmt.namesAll] using ih.2.append (ihyes.2.append ihno.2)
  | loop _ _ _ ih ihbody =>
    refine ⟨fun _ => ?_, ?_⟩
    · simp [Stmt.Structured, Stmt.StructuredAll, labelsOf, Stmt.label?, ih.1, ihbody.1]
    · simpa [Stmt.temps, Stmt.tempsAll, Stmt.names, Stmt.namesAll] using ih.2.append ihbody.2
  | stmts _ _ ih ihs => exact ⟨fun targets => ⟨ih.1 targets, ihs.1 targets⟩, ih.2.append ihs.2⟩
  | noBodies | body => trivial

structure Program.Made (p : Program) (a : Analysis) (l : Layout) (c : Code) (s : Supply) : Prop where
  analyzed : p.Analyzed a
  laidOut : p.LaidOut l s
  coded : ∀ f, Coded a l c s.labels f (.bodies p.decls)

section
variable {p : Program} {a : Analysis} {l : Layout} {c : Code} {s s' : Supply}

theorem Program.Formed.identifier (hp : p.Formed) {d : Decl} {k : Nat} (hd : p.InCode (k, .decl d)) :
    Identifier d.name := by
  have hformed := hp.formed _ hd.mem_levels
  cases d with
  | typed => exact hformed
  | proto | function => exact hformed.1

theorem Program.Analyzed.plain_layout (h : p.Analyzed a) (hl : p.LaidOut l s) : l.Plain := by
  refine ⟨fun id f hf => ?_, fun id label size hx => ?_⟩
  · obtain ⟨k, d, hd, -, hsuits⟩ := hl.sound.frames id f hf
    rcases hsuits.label with heq | ⟨n, heq⟩
    · rw [heq]
      exact (h.formed.identifier hd).plain
    · rw [heq]
      trivial
  · obtain ⟨k, d, hd, -, -, rfl⟩ := hl.sound.accesses id _ hx
    exact (h.formed.identifier hd).plain

namespace Program.Made

variable (h : p.Made a l c s)
include h

theorem inCode_or_inert {n : Node} (hn : p.Has n) : (∃ k, p.InCode (k, n)) ∨ n.Inert := by
  obtain ⟨_, _, hs, -⟩ := h.analyzed.typings.resolved
  obtain ⟨k, hk⟩ := hn
  exact (Program.inCode_or_inert h.analyzed.formed hs hk).imp_left fun hk => ⟨k, hk⟩

theorem covered {k : Nat} {n : Node} (hn : p.InCode (k, n)) : ∃ f, n.Covered a l c s.labels f :=
  (h.coded ⟨.fresh 0, 0, 0, 0, 0, 0⟩).covered h.analyzed.formed hn

theorem exists_takes {mark : Mark} {name : String} {params : List Decl} {result : TypeExpr} {body : Expr}
    (hd : p.Has (.decl (.function mark name params result body))) :
    ∃ f code, l.frames[mark.id]? = some f ∧ c.bodies[mark.id]? = some code ∧ f.Takes code s := by
  obtain ⟨k, hk⟩ := (h.inCode_or_inert hd).resolve_right fun hinert => hinert.elim
  obtain ⟨-, f, code, hf, hcode, hnodup, hlabels, hcoded⟩ := h.covered hk
  obtain ⟨f', hf', hsuits⟩ := h.laidOut.frames k _ hk rfl
  obtain rfl : f = f' := Option.some.inj (hf.symm.trans hf')
  obtain ⟨hstructured, howns⟩ := hcoded.formed (h.analyzed.plain_layout h.laidOut)
  exact ⟨f, code, hf, hcode, hstructured, hnodup, hlabels, howns.temps, howns.names, hsuits.apart, hsuits.fp, hsuits.rv⟩

theorem meets_chunkCode : Meets (p.chunkCode l c) s (fun chunks s' => s.Before s' ∧
    List.Forall₂ (fun d chunk => l.frames[d.1.id]? = some chunk.frame ∧ chunk.Fit s') p.bodies chunks)
    fun _ => False := by
  refine (meets_mapM (I := s.Before) (R := Supply.Before)
    (C := fun d chunk s' => l.frames[d.1.id]? = some chunk.frame ∧ chunk.Fit s') Supply.Before.refl
    (fun _ _ _ => Supply.Before.trans) (fun d chunk s₁ s₂ hchunk hs => ⟨hchunk.1, hchunk.2.mono hs.1⟩) ?_
    (Supply.Before.refl s)).mono fun chunks s' hs => hs.2
  rintro ⟨d, body⟩ hd s₁ hs
  obtain ⟨v, hv, hsome⟩ := List.mem_filterMap.mp hd
  split at hsome
  · cases hsome
    obtain ⟨f, code, hf, hcode, htakes⟩ := h.exists_takes (leave_mem_walk.mp hv)
    obtain ⟨chunk, s₂, hchunk, rfl, hfit, hs₂⟩ := (htakes.mono hs).exists_chunk
    refine Gives.meets ?_ ⟨hs.trans hs₂, hs₂, hf, hfit⟩
    simp only [gives_bind, gives_lift]
    exact ⟨_, _, ⟨orFault_eq_ok.mpr hf, rfl⟩, _, _, ⟨orFault_eq_ok.mpr hcode, rfl⟩, hchunk⟩
  · cases hsome

theorem exists_data : ∃ data, p.data l c = .ok data := by
  have hnode : ∀ n, p.Has n → ∃ found, n.data l c = .ok found := by
    intro n hn
    unfold Node.data
    split
    · next mark name type =>
      obtain ⟨k, hk⟩ := (h.inCode_or_inert hn).resolve_right fun hinert => by cases hinert
      obtain ⟨x, hx, -⟩ := h.laidOut.accesses k _ hk rfl
      rw [Layout.access, orFault_eq_ok.mpr hx]
      cases x <;> exact ⟨_, rfl⟩
    · next mark content =>
      obtain ⟨k, hk⟩ := (h.inCode_or_inert hn).resolve_right (not_exists.mpr fun _ hconstant => by cases hconstant)
      obtain ⟨f, code, hcoded | hcoded⟩ := h.covered hk
      · cases hcoded with
        | number hnumber => cases hnumber
        | string hstring => exact ⟨_, by rw [orFault_eq_ok.mpr hstring]; rfl⟩
        | load h => cases h
      · cases hcoded
    · exact ⟨none, rfl⟩
  refine exists_bind_eq_ok (exists_mapM_eq_ok fun v hv => ?_) fun found => ⟨_, rfl⟩
  cases v with
  | enter n => exact hnode n (enter_mem_walk.mp hv)
  | leave n => exact ⟨none, rfl⟩

end Program.Made
end

end MmixCompiler
