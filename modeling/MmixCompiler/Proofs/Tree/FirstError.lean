import MmixCompiler.Proofs.Tree.Acceptance

/-! The parser complains of the first token that no program has there. Tokens before it are the beginning of some
program. Since parsers look at one lexeme only, the complaint would be the same whatever came behind the token, and so
none of the texts that go on with it is a program. -/

namespace MmixCompiler

/-- The kinds of the tokens of a program, with the end of its text. -/
def Sentence (ks : List Token.Kind) : Prop := ∃ ds w, Derives (.decls ds) w ∧ ks = w ++ [.eos]

/-- Kinds of tokens that some program begins with. -/
def Viable (ks : List Token.Kind) : Prop := ∃ more, Sentence (ks ++ more)

theorem Derives.viable {ds : List Decl} {ks more : List Token.Kind} (h : Derives (.decls ds) (ks ++ more)) :
    Viable ks :=
  ⟨more ++ [.eos], ds, ks ++ more, h, by simp⟩

namespace Stream

variable {s : Stream}

theorem go_of_ok {t : Token} (h : s.head.outcome = .ok t) : ∃ ts, (Token.all.go s.ahead s.last).1 = t :: ts := by
  rcases s with ⟨_ | ⟨l, ls⟩, last⟩
  · exact ⟨[], by simp_all [Token.all.go, head]⟩
  · by_cases ht : t.kind = .eos
    · exact ⟨[], congrArg Prod.fst (go_eos h ht)⟩
    · exact ⟨(Token.all.go ls last).1, by simp_all [Token.all.go, head]⟩

theorem go_of_error {e : Token.Error} (h : s.head.outcome = .error e) : Token.all.go s.ahead s.last = ([], some e) := by
  rcases s with ⟨_ | ⟨l, ls⟩, last⟩ <;> simp_all [Token.all.go, head]

end Stream

/-- A text is refused after tokens that some program begins with, and would be refused in the same way whatever came
behind the lexeme that the error is about. -/
theorem Parse.refuses_program {s : Reader} {e : ParseError} (hs : s.stream.Closed)
    (h : (outcome program s).1 = .error e) : ∃ (ls : List Lexeme) (ks : List Token.Kind) (rest : Stream),
      List.Forall₂ Lexeme.Shows ls ks ∧ (∃ ds more, Derives (.decls ds) (ks ++ more)) ∧
        s.stream = rest.prepend ls ∧ rest.head.Offends e ∧
      ∀ r : Stream, r.head = rest.head → (outcome program { s with stream := r.prepend ls }).1 = .error e := by
  rw [outcome_program] at h
  have htakes := takes_programOf (Grammar.sound_ofDepth (s.stream.length + 1))
  obtain ⟨ls, ks, hls, ⟨p, more, hp⟩, rest, hrest, he, hrefuses⟩ := Meets.of_error (htakes s hs (Nat.lt_succ_self _)) h
  refine ⟨ls, ks, rest, hls, ⟨_, more, hp⟩, hrest, he, fun r hr => ?_⟩
  rw [outcome_program]
  exact hrefuses _ r hr (Nat.lt_succ_self _)

theorem Parse.not_viable_of_refuses {s : Reader} {ls : List Lexeme} {ks : List Token.Kind} {l : Lexeme} {k : Token.Kind}
    (hls : List.Forall₂ Lexeme.Shows ls ks) (hl : l.Shows k)
    (h : ∀ r : Stream, r.head = l → ∃ e, (outcome program { s with stream := r.prepend ls }).1 = .error e) :
    ¬Viable (ks ++ [k]) := by
  rintro ⟨more, ds, w, hds, hw⟩
  -- a stream that spells the sentence and has the lexeme at its place
  obtain ⟨st, rest, hst, -⟩ := Stream.exists_begins more
  have hbegins : ((st.prepend [l]).prepend ls).Begins (w ++ [.eos]) rest := by
    rw [← hw, List.append_assoc]
    exact (Stream.begins_prepend hls).append ((Stream.begins_prepend (.cons hl .nil)).append hst)
  obtain ⟨mid, hmid, hend⟩ := Stream.begins_append.mp hbegins
  obtain ⟨p, s', hp, -⟩ :=
    (accepts_program hds hend.shows { s with stream := (st.prepend [l]).prepend ls } hmid).exists_gives
  obtain ⟨e, he⟩ := h (st.prepend [l]) rfl
  cases he.symm.trans (congrArg Prod.fst hp)

/-- A text that cannot be parsed has an error at the first token such that no program begins with the tokens up to it,
or it is the first lexical error and some program begins with the tokens before it. -/
theorem parse_fails_first_impossible (src : String) {e : ParseError} (h : (Program.parse src).1 = .error e) :
    (∀ expected found, e.fault = .unexpected expected found → ∃ k t, (Token.all src).1[k]? = some t ∧
      t.start = e.position ∧ t.kind = found ∧ Viable (((Token.all src).1.take k).map Token.kind) ∧
      ¬Viable (((Token.all src).1.take (k + 1)).map Token.kind)) ∧
    ∀ fault, e.fault = .lexical fault →
      (Token.all src).2 = some ⟨e.position, fault⟩ ∧ Viable ((Token.all src).1.map Token.kind) := by
  obtain ⟨ls, ks, rest, hls, ⟨ds, more, hds⟩, hsrc, he, hrefuses⟩ := Parse.refuses_program (Stream.closed_ofScanner _) h
  have hne : .eos ∉ ks := fun hmem => hds.eos_notMem (List.mem_append_left _ hmem)
  have hbegins : (Stream.ofString src).Begins ks rest := by
    rw [show Stream.ofString src = rest.prepend ls from hsrc]
    exact Stream.begins_prepend hls
  obtain ⟨ts, hkinds, hts⟩ := hbegins.go hne
  replace hts : Token.all src = _ := hts
  cases ho : rest.head.outcome with
  | error fault =>
    rw [Lexeme.Offends, ho] at he
    rw [Stream.go_of_error ho, List.append_nil] at hts
    refine ⟨fun _ _ hfault => ?_, fun _ hfault => ?_⟩
    · simp [he] at hfault
    · rw [hts, hkinds]
      refine ⟨?_, hds.viable⟩
      rw [he] at hfault ⊢
      cases hfault
      rfl
  | ok t =>
    rw [Lexeme.Offends, ho] at he
    obtain ⟨expected, rfl⟩ := he
    obtain ⟨ts', hts'⟩ := Stream.go_of_ok ho
    rw [hts'] at hts
    refine ⟨fun _ _ hfault => ⟨ts.length, t, ?_, rfl, ?_, ?_, ?_⟩, fun _ hfault => by cases hfault⟩
    · simp [hts]
    · cases hfault
      rfl
    · simpa [hts, hkinds] using hds.viable
    · have hnot := Parse.not_viable_of_refuses hls ⟨t, ho, rfl⟩ fun r hr => ⟨_, hrefuses r hr⟩
      simpa [hts, List.take_length_add_append, hkinds] using hnot

/-- An expression that ends too early. -/
def unfinishedSum : String := "var a: int; fun f(): int = a + ;"

/-- An expression with a character that begins no token. -/
def strangeSum : String := "fun f(): int = a + ~"

theorem unfinished_and_strange_fail :
    ((Program.parse unfinishedSum).1 = .error ⟨⟨0, 31⟩, .unexpected .expression (.punct ';')⟩ ∧
      ∃ k t, (Token.all unfinishedSum).1[k]? = some t ∧ t.start = ⟨0, 31⟩ ∧ t.kind = .punct ';' ∧
        Viable (((Token.all unfinishedSum).1.take k).map Token.kind) ∧
        ¬Viable (((Token.all unfinishedSum).1.take (k + 1)).map Token.kind)) ∧
    (Program.parse strangeSum).1 = .error ⟨⟨0, 19⟩, .lexical (.illegalCharacter '~')⟩ ∧
      (Token.all strangeSum).2 = some ⟨⟨0, 19⟩, .illegalCharacter '~'⟩ ∧
      Viable ((Token.all strangeSum).1.map Token.kind) := by
  have hsum : (Program.parse unfinishedSum).1 = .error ⟨⟨0, 31⟩, .unexpected .expression (.punct ';')⟩ :=
    failure?_eq_some.mp (by decide +kernel)
  have htilde : (Program.parse strangeSum).1 = .error ⟨⟨0, 19⟩, .lexical (.illegalCharacter '~')⟩ :=
    failure?_eq_some.mp (by decide +kernel)
  exact ⟨⟨hsum, (parse_fails_first_impossible _ hsum).1 _ _ rfl⟩,
    htilde, (parse_fails_first_impossible _ htilde).2 _ rfl⟩

end MmixCompiler
