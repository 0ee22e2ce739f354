import MmixCompiler.Proofs.Token.Spelling
import MmixCompiler.Proofs.Tree.Acceptance
import MmixCompiler.Proofs.Types.Spelled

/-! The text of a plain type is an expression: it is read as the tokens that spell the tree of the type, and a
variable that is declared by it has a type of the same text and the same tree. -/

namespace MmixCompiler

open List

theorem intercalate_concat {sep t : String} {ss : List String} (h : ss ≠ []) :
    sep.intercalate (ss ++ [t]) = sep.intercalate ss ++ sep ++ t := by
  induction ss with
  | nil => exact absurd rfl h
  | cons s ss ih =>
    cases ss with
    | nil => simp [String.intercalate_cons_cons]
    | cons u us =>
      rw [cons_append, cons_append, String.intercalate_cons_cons, ← cons_append, ih (by simp),
        String.intercalate_cons_cons]
      simp [String.append_assoc]

namespace Token

variable {rest : List Char} {k : Kind} {ks ks' : List Kind} {c : Char}

theorem Lexes.cons (hk : k.Spellable) (hrest : k.Ends rest) (h : Lexes rest ks) :
    Lexes (k.spelling ++ rest) (k :: ks) := .token .nil hk hrest h

theorem Lexes.blank (h : Lexes rest ks) : Lexes (' ' :: rest) ks := by
  cases h with
  | trivia hgap => exact .trivia (.blank (by decide) hgap)
  | token hgap hk hrest h => exact .token (.blank (by decide) hgap) hk hrest h

theorem Lexes.keyword (word : Keyword) (hc : ¬(c.isAlphanum ∨ c = '_')) (h : Lexes (c :: rest) ks) :
    Lexes (word.text.toList ++ c :: rest) (.keyword word :: ks) := by
  refine .cons (k := .keyword word) trivial ?_ h
  rintro _ ⟨⟩
  exact hc

theorem Lexes.punct (hc : c ∈ ['(', ')', ',', ':', ';', '[', ']']) (h : Lexes rest ks) :
    Lexes (c :: rest) (.punct c :: ks) := by
  refine .cons (k := .punct c) ?_ (fun _ _ habsorbs => ?_) h
  · simp only [Kind.Spellable, mem_cons, not_mem_nil] at hc ⊢
    tauto
  · simp only [mem_cons, not_mem_nil, or_false] at hc
    rcases hc with rfl | rfl | rfl | rfl | rfl | rfl | rfl <;> exact absurd habsorbs.1 (by decide)

theorem Kind.spellable_ident {name : String} (h : Identifier name) : (Kind.ident name).Spellable := by
  obtain ⟨c, cs, hname, hc⟩ := h.start
  refine ⟨⟨c, cs, hname, isNameStart_iff.mp hc, fun d hd => isNamePart_iff.mp (h.plain d ?_)⟩, ?_⟩
  · rw [hname]
    exact mem_cons_of_mem _ hd
  · rintro word rfl
    simpa [Keyword.ofText?_text] using h.free

/-- The text is read as these tokens wherever what follows goes on with no name. -/
def ReadsAs (text : String) (ks : List Kind) : Prop := ∀ rest ks', Lexes rest ks' →
  (∀ c ∈ rest.head?, ¬(c.isAlphanum ∨ c = '_')) → Lexes (text.toList ++ rest) (ks ++ ks')

theorem reads_keyword (word : Keyword) : ReadsAs word.text [.keyword word] := fun _ _ h hrest =>
  .cons (k := .keyword word) trivial hrest h

end Token

open Token

theorem Lexeme.Spells.shows {l : Lexeme} {k : Kind} (h : l.Spells k) : l.Shows k := by
  obtain ⟨t, ht, hk, -⟩ := h
  exact ⟨t, ht, hk⟩

theorem Stream.head_ofScanner (s : Scanner) : (ofScanner s).head = s.advance.1 := by
  rw [ofScanner]
  split <;> rfl

theorem Scanner.At.begins {s : Scanner} {text : List Char} {ks : List Kind} (h : s.At text) (hlexes : Lexes text ks) :
    ∃ rest, (Stream.ofScanner s).Begins ks rest ∧ rest.head.Shows .eos := by
  have hadvance : ∀ {s : Scanner} {text : List Char}, s.At text → s.next = s.advance := fun h => by
    rw [Scanner.next, h.held]
  induction hlexes generalizing s with
  | trivia hgap =>
    refine ⟨_, .nil, ?_⟩
    rw [Stream.head_ofScanner, ← hadvance h]
    exact (h.next_trivia hgap).1.shows
  | @token gap rest k ks hgap hk hrest _ ih =>
    obtain ⟨hspells, hat⟩ := h.next hgap hk.triviaLength_append (finds_spelling hk hrest)
    rw [hadvance h] at hspells hat
    obtain ⟨last, hlast, hend⟩ := ih hat
    have hlt : s.advance.2.rest.length < s.rest.length := by
      obtain ⟨c, cs, hspelling, -⟩ := hk.exists_cons
      rw [hat.rest, h.rest, hspelling]
      simp only [length_append, length_cons]
      omega
    refine ⟨last, ?_, hend⟩
    rw [Stream.ofScanner, if_pos hlt]
    exact .cons (by simp) hspells.shows hlast

namespace Registry

variable {r : Registry} {a : TypeId} {n : Nat}

theorem readsAs_components {fields : List (String × TypeId)} (hne : fields ≠ []) (hnames : ∀ f ∈ fields, Identifier f.1)
    (htypes : ∀ f ∈ fields, ∃ ks, Derives (.type (r.treeTo n f.2)) ks ∧ ReadsAs (r.textTo n f.2) ks) :
    ∃ ks, Derives (.names .component (fields.map fun f => .typed .blank .component f.1 (r.treeTo n f.2))) ks ∧
      ReadsAs (", ".intercalate (fields.map fun f => f.1 ++ ": " ++ r.textTo n f.2)) ks := by
  induction fields using List.reverseRecOn with
  | nil => exact absurd rfl hne
  | append_singleton fields f ih =>
    obtain ⟨ks, hderives, hreads⟩ := htypes f (by simp)
    have hlast : ReadsAs (f.1 ++ ": " ++ r.textTo n f.2) (.ident f.1 :: .punct ':' :: ks) :=
      fun rest ks' hlexes hrest => by
      have hends : ∀ cs, (Kind.ident f.1).Ends (':' :: cs) := by
        rintro cs _ ⟨⟩
        exact (by decide : ¬(':'.isAlphanum ∨ ':' = '_'))
      simp only [String.toList_append, append_assoc]
      refine .cons (k := .ident f.1) (Kind.spellable_ident (hnames f (by simp))) (hends _) ?_
      exact .punct (by decide) (hreads rest ks' hlexes hrest).blank
    by_cases hfirst : fields = []
    · subst hfirst
      exact ⟨_, .namesOne hderives, by simpa using hlast⟩
    · obtain ⟨ks₁, hderives₁, hreads₁⟩ := ih hfirst (fun f hf => hnames f (by simp [hf]))
        fun f hf => htypes f (by simp [hf])
      refine ⟨ks₁ ++ .punct ',' :: .ident f.1 :: .punct ':' :: ks, ?_, fun rest ks' hlexes hrest => ?_⟩
      · simpa using hderives₁.namesMore hderives
      · have hcomma : ∀ c ∈ (", ".toList ++ ((f.1 ++ ": " ++ r.textTo n f.2).toList ++ rest)).head?,
            ¬(c.isAlphanum ∨ c = '_') := by
          rintro _ ⟨⟩
          decide
        rw [map_append, map_singleton, intercalate_concat (by simpa using hfirst), String.toList_append,
          String.toList_append, append_assoc, append_assoc, append_assoc]
        exact hreads₁ _ _ (.punct (by decide) (hlast rest ks' hlexes hrest).blank) hcomma

theorem Plain.reads (h : r.Plain a) (hn : a < n) :
    ∃ ks, Derives (.type (r.treeTo n a)) ks ∧ ReadsAs (r.textTo n a) ks := by
  induction h generalizing n with
  | @intro a hform hvoid hbefore _ ih =>
    obtain ⟨n, rfl⟩ := Nat.exists_eq_succ_of_ne_zero (Nat.ne_zero_of_lt hn)
    have hparts : ∀ c ∈ (r.get a).targets, ∃ ks, Derives (.type (r.treeTo n c)) ks ∧ ReadsAs (r.textTo n c) ks :=
      fun c hc => ih c hc (Nat.lt_of_lt_of_le (hbefore c hc) (Nat.le_of_lt_succ hn))
    rw [treeTo, textTo]
    cases hget : r.get a with
    | int => exact ⟨_, .atomType, reads_keyword .int⟩
    | char => exact ⟨_, .atomType, reads_keyword .char⟩
    | bool => exact ⟨_, .atomType, reads_keyword .bool⟩
    | void => exact ⟨_, .atomType, reads_keyword .void⟩
    | named name d => exact absurd hform (by simp [hget, Ty.Writable])
    | ptr c =>
      obtain ⟨ks, hderives, hreads⟩ := hparts c (by simp [hget, Ty.targets])
      refine ⟨_, .ptr hderives, fun rest ks' hlexes hrest => ?_⟩
      rw [String.toList_append, append_assoc]
      exact Lexes.keyword .ptr (by decide) (hreads rest ks' hlexes hrest).blank
    | arr length c =>
      obtain ⟨hpos, hle⟩ : 0 < length ∧ length ≤ Word.greatest := by simpa [hget, Ty.Writable] using hform
      obtain ⟨length, rfl⟩ := Int.eq_ofNat_of_zero_le (Int.le_of_lt hpos)
      obtain ⟨ks, hderives, hreads⟩ := hparts c (by simp [hget, Ty.targets])
      have hlit : Derives (.expr .disjunction (.lit .blank (.int length))) [.int length] :=
        .tighter rfl (.tighter rfl (.tighter rfl (.tighter rfl (.tighter rfl (.tighter rfl (.tighter rfl .lit))))))
      refine ⟨_, .arr hlit hderives, fun rest ks' hlexes hrest => ?_⟩
      have hdigits : (toString (length : Int)).toList = (Kind.int length).spelling := by
        change (Nat.repr length).toList = Nat.toDigits 10 length
        simp [Nat.repr]
      have hbracket : ∀ cs, (Kind.int length).Ends (']' :: cs) := by
        rintro cs _ ⟨⟩
        exact (by decide : ¬ ']'.isDigit)
      simp only [String.toList_append, append_assoc, hdigits]
      refine Lexes.keyword .arr (by decide) (.punct (by decide) (.cons (k := .int length) ?_ (hbracket _) ?_))
      · unfold Word.greatest at hle
        exact (by omega : length < 2 ^ 63)
      · exact .punct (by decide) (hreads rest ks' hlexes hrest).blank
    | record fields =>
      obtain ⟨hne, -, hnames⟩ : (Ty.record fields).Writable := hget ▸ hform
      obtain ⟨ks, hderives, hreads⟩ := readsAs_components hne hnames fun f hf =>
        hparts f.2 (by simpa [hget, Ty.targets] using ⟨f.1, hf⟩)
      refine ⟨_, .record hderives, fun rest ks' hlexes _ => ?_⟩
      have hparen : ∀ c ∈ (')' :: rest).head?, ¬(c.isAlphanum ∨ c = '_') := by
        rintro _ ⟨⟩
        decide
      simp only [String.toList_append, append_assoc]
      refine Lexes.keyword .record (by decide) (.punct (by decide) ?_)
      simpa using hreads _ _ (.punct (by decide) hlexes) hparen

theorem Plain.parses (h : r.Plain a) (hn : a < n) : (Token.all ("var x: " ++ r.textTo n a ++ ";")).2 = none ∧
      ∃ p, (Program.parse ("var x: " ++ r.textTo n a ++ ";")).1 = .ok p ∧
        p.bare = ⟨[.typed .blank .variable "x" (r.treeTo n a)]⟩ := by
  generalize hsrc : "var x: " ++ r.textTo n a ++ ";" = src
  obtain ⟨ks, hderives, hreads⟩ := h.reads hn
  have hlexes : Lexes src.toList (.keyword .var :: .ident "x" :: .punct ':' :: ks ++ [.punct ';']) := by
    have hname : Identifier "x" := ⟨⟨'x', [], rfl, by decide⟩, by simp [PlainName, isNamePart, isNameStart], by decide⟩
    have hcolon : ∀ cs, (Kind.ident "x").Ends (':' :: cs) := by
      rintro cs _ ⟨⟩
      exact (by decide : ¬(':'.isAlphanum ∨ ':' = '_'))
    have hsemicolon : ∀ c ∈ [';'].head?, ¬(c.isAlphanum ∨ c = '_') := by
      rintro _ ⟨⟩
      decide
    rw [← hsrc, String.toList_append, String.toList_append, append_assoc]
    refine Lexes.keyword .var (c := ' ') (by decide) (.blank ?_)
    refine .cons (k := .ident "x") (Kind.spellable_ident hname) (hcolon _) ?_
    exact .punct (by decide) (hreads _ _ (.punct (by decide) (.trivia .nil)) hsemicolon).blank
  obtain ⟨rest, hbegins, hend⟩ := Scanner.At.begins (s := .ofString src) ⟨rfl, rfl⟩ hlexes
  have hdecls : Derives (.decls [.typed .blank .variable "x" (r.treeTo n a)]) _ := .declsOne (.var hderives)
  obtain ⟨ts, hts, -⟩ := hbegins.all hend hdecls.eos_notMem
  obtain ⟨p, s', hp, -, hbare⟩ := (Parse.accepts_program hdecls hend (.ofString src) hbegins).exists_gives
  exact ⟨congrArg Prod.snd hts, p, congrArg Prod.fst hp, hbare⟩

end Registry

namespace Program

variable {p : Program} {b : Bindings} {t : Typing}

theorem declares_again {r : Registry} {a : TypeId} (h : r.Plain a) (hvoid : r.get a ≠ .void) (ha : a < r.size)
    (hbytes : ∀ c, ∃ b, r.bytes? c = some b) : ∃ p b t d a',
      (Token.all ("var x: " ++ r.text a ++ ";")).2 = none ∧ (Program.parse ("var x: " ++ r.text a ++ ";")).1 = .ok p ∧
      p.decls = [d] ∧ d.bare = .typed .blank .variable "x" (r.tree a) ∧ p.bind = .ok b ∧ p.typing b = .ok t ∧
      t.declTypes[d.id]? = some a' ∧ t.registry.text a' = r.text a ∧ t.registry.tree a' = r.tree a := by
  have hn : a < r.size + 1 := Nat.lt_succ_of_lt ha
  obtain ⟨hall, p, hp, hbare⟩ := h.parses hn
  have hdecls : p.decls.map Decl.bare = [.typed .blank .variable "x" (r.tree a)] := by
    rw [← Decl.bareAll_eq]
    exact congrArg Program.decls hbare
  obtain ⟨d, hd, hdbare⟩ := map_eq_singleton_iff.mp hdecls
  obtain ⟨mark, u, rfl, hu⟩ := Decl.eq_typed_of_bare hdbare
  have hspells : u.Spells r a := ⟨h, r.size + 1, hn, hu⟩
  have hspelled : p.Spelled r := .of_decls (formed_parse hp) (by
    simpa [hd] using ⟨mark, .variable, "x", u, a, rfl, .inl rfl, hvoid, hspells⟩)
  obtain ⟨b, hb⟩ := hspelled.exists_bind (by simp [hd])
  obtain ⟨s, hs, ht⟩ := hspelled.exists_typing b hbytes
  have hhas : p.Has (.decl (.typed mark .variable "x" u)) := ⟨0, mem_levels_decl (by simp [hd])⟩
  obtain ⟨a', ha', -⟩ := hs.decls _ hhas
  have hlt := Nat.lt_succ_of_lt (hs.sound.decls _ a' ha')
  obtain ⟨htree, htext, -⟩ := hs.agrees hhas.type hspells (hs.declared _ hhas rfl a' ha') hn hlt
  exact ⟨p, b, s.typing, _, a', hall, hp, hd, hdbare, hb, ht, ha', htext, htree⟩

/-- The text of the type of a variable is a type expression: if no named type occurs in the type that was written,
a variable that is declared by the text is read, bound and typed without an error, and its type has the same text and
the same unfolding. -/
theorem displayed_type_reads_back {src : String} (hparse : (Program.parse src).1 = .ok p) (hbind : p.bind = .ok b)
    (htyping : p.typing b = .ok t) {d : Decl} (hd : p.Has (.decl d)) (hrole : d.HasRole .variable)
    (hnamed : ∀ mark name, .type (.named mark name) ∉ (Node.type d.type).nodes) :
    ∃ a, t.declTypes[d.id]? = some a ∧ ∃ p' b' t' d' a',
      (Token.all ("var x: " ++ t.registry.text a ++ ";")).2 = none ∧
      (Program.parse ("var x: " ++ t.registry.text a ++ ";")).1 = .ok p' ∧ p'.decls = [d'] ∧
      d'.bare = .typed .blank .variable "x" (t.registry.tree a) ∧ p'.bind = .ok b' ∧ p'.typing b' = .ok t' ∧
      t'.declTypes[d'.id]? = some a' ∧ t'.registry.text a' = t.registry.text a ∧
      t'.registry.tree a' = t.registry.tree a := by
  have hp := formed_parse hparse
  have h := hp.typing hbind htyping
  obtain ⟨_, s, hs, hwidens, -, hdecls, -⟩ := h.resolved
  obtain ⟨a, ha, -⟩ := hs.decls d hd
  have htype : d.isType = false := hrole.isType_eq_false (by simp)
  have hsignature : d.signature? = none := by
    cases d with
    | typed => rfl
    | proto | function => exact hrole.elim
  have hplain : s.typing.registry.Plain a := Node.typedPlain hp hs hd.type hnamed a (hs.declared d hd htype a ha)
  have hvoid := hs.storage_ne_void hd htype hsignature ha hplain
  have hlt := hs.sound.decls _ a ha
  refine ⟨a, hdecls ▸ ha, declares_again (hplain.mono hlt hwidens) ?_
    (Nat.lt_of_lt_of_le hlt hwidens.size) h.exists_bytes⟩
  rwa [hwidens.get a hlt]

/-- A record with a record in it, a folded length, and pointers to what is no storage. -/
def nestedRecords : String :=
  "var v: rec(x: arr[2 * (1 + 1)] ptr arr[+3] ptr void, rest: rec(x: ptr rec(_: char), b1: bool)); typ t: int;"

theorem nestedRecords_read_back : ∃ p b t d a, (Program.parse nestedRecords).1 = .ok p ∧ p.bind = .ok b ∧
    p.typing b = .ok t ∧ p.Has (.decl d) ∧ d.HasRole .variable ∧ t.declTypes[d.id]? = some a ∧
    t.registry.text a = "rec(x: arr[4] ptr arr[3] ptr void, rest: rec(x: ptr rec(_: char), b1: bool))" ∧
    ∃ p' b' t' d' a', (Program.parse ("var x: " ++ t.registry.text a ++ ";")).1 = .ok p' ∧ p'.decls = [d'] ∧
      p'.bind = .ok b' ∧ p'.typing b' = .ok t' ∧ t'.declTypes[d'.id]? = some a' ∧
      t'.registry.tree a' = t.registry.tree a := by
  have h : ((Program.parse nestedRecords).1.toOption.bind fun p => p.bind.toOption.bind fun b =>
      (p.typing b).toOption.bind fun t => p.decls.head?.bind fun d => t.declTypes[d.id]?.map fun a =>
        (d.category, (Node.type d.type).nodes.all fun n => n.use?.isNone, t.registry.text a)) =
      some (.variable, true, "rec(x: arr[4] ptr arr[3] ptr void, rest: rec(x: ptr rec(_: char), b1: bool))") := by
    rw [nestedRecords, parse_ofList]
    decide +kernel
  simp only [Option.bind_eq_some_iff, Option.map_eq_some_iff, toOption_eq_some, Prod.mk.injEq] at h
  obtain ⟨p, hp, b, hb, t, ht, d, hd, a, ha, hcategory, huse, htext⟩ := h
  have hmem := mem_of_head? hd
  have hrole : d.HasRole .variable := by
    have hdeclared := (formed_parse hp).declared d hmem
    cases d with
    | typed =>
      obtain rfl | rfl := hdeclared
      · rfl
      · cases hcategory
    | proto | function => cases hcategory
  have hnamed : ∀ mark name, .type (.named mark name) ∉ (Node.type d.type).nodes := fun mark name hmem => by
    simpa [Node.use?] using all_eq_true.mp huse _ hmem
  obtain ⟨a', ha', p', b', t', d', c, -, hp', hd', -, hb', ht', hc, -, htree⟩ :=
    displayed_type_reads_back hp hb ht ⟨0, mem_levels_decl hmem⟩ hrole hnamed
  obtain rfl : a' = a := Option.some.inj (ha'.symm.trans ha)
  exact ⟨p, b, t, d, a', hp, hb, ht, ⟨0, mem_levels_decl hmem⟩, hrole, ha, htext, p', b', t', d', c, hp',
    hd', hb', ht', hc, htree⟩

end Program

end MmixCompiler
