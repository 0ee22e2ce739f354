import MmixCompiler.Proofs.Tree.Completeness
import MmixCompiler.Proofs.Tree.Scanning

/-! The parser accepts a text if and only if its tokens spell a program, and then it gives that
program. -/

namespace MmixCompiler

namespace Stream

theorem closed_ofScanner (s : Scanner) : (ofScanner s).Closed := by
  fun_induction ofScanner s with
  | case1 s r h t ih => exact ih
  | case2 s r h =>
    intro t ht
    by_contra hne
    refine h ?_
    simp only [r, Scanner.advance] at ht ⊢
    split at ht
    · next kind hkind =>
      cases ht
      have := Token.length_scan hkind hne
      rw [List.length_drop] at this
      omega
    · cases ht

variable {s rest : Stream} {ks : List Token.Kind}

theorem Begins.go (h : s.Begins ks rest) (hne : .eos ∉ ks) : ∃ ts, ts.map Token.kind = ks ∧
    Token.all.go s.ahead s.last =
      (ts ++ (Token.all.go rest.ahead rest.last).1, (Token.all.go rest.ahead rest.last).2) := by
  induction h with
  | nil => exact ⟨[], rfl, rfl⟩
  | @cons s k ks rest hahead hk _ ih =>
    obtain ⟨hkne, hne⟩ := not_or.mp (List.mem_cons.not.mp hne)
    obtain ⟨ts, hkinds, hts⟩ := ih hne
    obtain ⟨t, ht, rfl⟩ := hk
    obtain ⟨l, ls, hs⟩ := List.exists_cons_of_ne_nil hahead
    rw [head, hs, List.headD_cons] at ht
    rw [tail, hs, List.tail_cons] at hts
    exact ⟨t :: ts, by simp [hkinds], by simp [hs, Token.all.go, ht, Ne.symm hkne, hts]⟩

theorem go_eos {t : Token} (h : s.head.outcome = .ok t) (ht : t.kind = .eos) :
    Token.all.go s.ahead s.last = ([t], none) := by
  rcases s with ⟨_ | ⟨l, ls⟩, last⟩ <;> simp_all [Token.all.go, head]

theorem Begins.all (h : s.Begins ks rest) (hend : rest.head.Shows .eos) (hne : .eos ∉ ks) :
    ∃ ts, Token.all.go s.ahead s.last = (ts, none) ∧ ts.map Token.kind = ks ++ [.eos] := by
  obtain ⟨ts, hkinds, hts⟩ := h.go hne
  obtain ⟨t, ht, hkind⟩ := hend
  rw [go_eos ht hkind] at hts
  exact ⟨ts ++ [t], hts, by simp [hkinds, hkind]⟩

theorem Closed.exists_begins (hs : s.Closed) (h : (Token.all.go s.ahead s.last).2 = none) :
    ∃ ks rest, s.Begins ks rest ∧ rest.head.Shows .eos ∧ .eos ∉ ks := by
  obtain ⟨ahead, last⟩ := s
  induction ahead with
  | nil =>
    rcases ht : last.outcome with e | t
    · simp [Token.all.go, ht] at h
    · exact ⟨[], _, .nil, ⟨t, ht, hs t ht⟩, by simp⟩
  | cons l ls ih =>
    rcases ht : l.outcome with e | t
    · simp [Token.all.go, ht] at h
    · by_cases hkind : t.kind = .eos
      · exact ⟨[], _, .nil, ⟨t, ht, hkind⟩, by simp⟩
      · simp only [Token.all.go, ht, hkind, if_false] at h
        obtain ⟨ks, rest, hks, hend, hne⟩ := ih hs h
        exact ⟨t.kind :: ks, rest, .cons (by simp) ⟨t, ht, rfl⟩ hks, hend,
          List.mem_cons.not.mpr (not_or.mpr ⟨Ne.symm hkind, hne⟩)⟩

theorem exists_begins (ks : List Token.Kind) : ∃ s rest : Stream, s.Begins ks rest ∧ rest.head.Shows .eos := by
  let lexeme (k : Token.Kind) : Lexeme := ⟨.ok ⟨k, "", {}, {}⟩, {}⟩
  refine ⟨⟨ks.map lexeme, lexeme .eos⟩, ⟨[], lexeme .eos⟩, ?_, _, rfl, rfl⟩
  induction ks with
  | nil => exact .nil
  | cons k ks ih => exact .cons (by simp) ⟨_, rfl, rfl⟩ ih

end Stream

/-- The end of the text is part of no phrase. -/
theorem Derives.eos_notMem {p : Phrase} {ks : List Token.Kind} (h : Derives p ks) : .eos ∉ ks := by
  induction h with
  | @binary op | @comparison op => cases op <;> simp_all [BinaryOp.token]
  | @unary op => cases op <;> simp_all [UnaryOp.token]
  | @lit value => rcases value with v | v | (_ | _) | _ | _ | v <;> simp [Literal.token]
  | @atomType a => cases a <;> simp [AtomType.token]
  | _ => simp_all

namespace Parse

def programOf (g : Grammar) : Parse Program := do
  let decls ← g.decls
  let t ← peek
  if t.kind = .eos then return ⟨decls⟩
  else reject (← next) .declaration

theorem outcome_program (s : Reader) : outcome program s = outcome (programOf (.ofDepth (s.stream.length + 1))) s := by
  generalize hg : Grammar.ofDepth (s.stream.length + 1) = g
  have hgrammar : outcome grammar s = (.ok g, s) := by
    rw [← hg]
    rfl
  rw [program, outcome_bind, hgrammar]
  rfl

theorem takes_programOf {ι : Type} {d : Bounds ι} {g : Grammar} {g' : ι → Grammar} (hg : Grammar.Sound d g g') :
    Takes d (programOf g) (fun i => programOf (g' i)) fun p ks => Derives (.decls p.bare.decls) ks := by
  refine hg.decls.bind fun ds ks hds => takes_peek_bind fun t => Takes.after ?_
  split
  · exact takes_pure (by simpa [Program.bare] using hds)
  · exact (takes_next_bind fun t => .reject rfl (fun _ => rfl) ⟨⟨ds⟩, [], by simpa [Program.bare] using hds⟩).pred

theorem meets_program {s : Reader} (hs : s.stream.Closed) :
    Meets program s (fun p s' => ∃ ks, s.stream.Begins ks s'.stream ∧ s'.stream.head.Shows .eos ∧
      Derives (.decls p.bare.decls) ks) fun _ => True := by
  simp only [program, grammar, meets_bind, meets_get, meets_pure]
  refine Meets.imp ((Grammar.sound_ofDepth _).decls s hs (Nat.lt_succ_self _)) ?_ fun _ _ => trivial
  rintro ds s₁ ⟨ls, ks, hls, hds, hs₁, -⟩
  rcases ho : s₁.stream.head.outcome with e | t
  · simp [peek, ofLexeme, ho]
  · simp only [peek, ofLexeme, ho, meets_bind, meets_get, meets_set, meets_pure]
    split
    · next hend => exact ⟨ks, hs₁ ▸ Stream.begins_prepend hls, ⟨t, ho, hend⟩, by simpa [Program.bare] using hds⟩
    · simp [next, ofLexeme, ho, reject]

theorem accepts_program {ds : List Decl} {ks : List Token.Kind} {rest : Stream}
    (h : Derives (.decls ds) ks) (hend : rest.head.Shows .eos) :
    Accepts program ks rest (·.bare = ⟨ds⟩) := by
  intro s hs
  have hlength := hs.length
  rw [program, meets_bind, grammar, meets_bind, meets_get, meets_pure]
  apply ((Grammar.complete_ofDepth _).decls h hend (by decide) (by omega) s hs).bind
  rintro decls s₁ ⟨hs₁, hdecls⟩
  refine within_peek_bind (n := 0) (.inr ⟨rfl, hend⟩) (fun t => ?_) (Nat.le_refl 0) s₁ (hs₁ ▸ .nil)
  exact within_pure (by simp [Program.bare, hdecls])

end Parse

/-- A text without lexical errors is accepted if and only if its tokens up to the end spell a program
in the grammar, and the tree is then the spelled one with numbers and places; any other text is
rejected. Tokens spell at most one program. -/
theorem parse_exactly_grammar (src : String) :
    ((Token.all src).2 = none → ∃ ks, (Token.all src).1.map Token.kind = ks ++ [.eos] ∧
      ∀ t : Program, (∃ p, (Program.parse src).1 = .ok p ∧ p.bare = t) ↔ Derives (.decls t.decls) ks) ∧
    ((Token.all src).2 ≠ none → ∃ e, (Program.parse src).1 = .error e) ∧
    ∀ ks ds ds', Derives (.decls ds) ks → Derives (.decls ds') ks → ds = ds' := by
  have hclosed : (Stream.ofString src).Closed := Stream.closed_ofScanner _
  -- an accepted text has the tokens of a derivation, and nothing behind them
  have hsound : ∀ p, (Program.parse src).1 = .ok p → ∃ ks, (Token.all src).2 = none ∧
      (Token.all src).1.map Token.kind = ks ++ [.eos] ∧ Derives (.decls p.bare.decls) ks := by
    intro p hp
    obtain ⟨ks, hks, hend, hds⟩ := (Parse.meets_program hclosed).of_gives
      (show Gives Parse.program (.ofString src) p (Program.parse src).2 from Prod.ext hp rfl)
    obtain ⟨ts, hts, hkinds⟩ := hks.all hend hds.eos_notMem
    exact ⟨ks, congrArg Prod.snd hts, (congrArg _ (congrArg Prod.fst hts)).trans hkinds, hds⟩
  refine ⟨fun hall => ?_, fun hall => ?_, fun ks ds ds' h h' => ?_⟩
  · obtain ⟨ks, rest, hks, hend, hne⟩ := hclosed.exists_begins hall
    obtain ⟨ts, hts, hkinds⟩ := hks.all hend hne
    replace hkinds : (Token.all src).1.map Token.kind = ks ++ [.eos] :=
      (congrArg _ (congrArg Prod.fst hts)).trans hkinds
    refine ⟨ks, hkinds, fun t => ⟨?_, fun h => ?_⟩⟩
    · rintro ⟨p, hp, rfl⟩
      obtain ⟨ks', -, hkinds', hds⟩ := hsound p hp
      rwa [List.append_cancel_right (hkinds.symm.trans hkinds')]
    · obtain ⟨p, s', hp, -, hbare⟩ := (Parse.accepts_program h hend (.ofString src) hks).exists_gives
      exact ⟨p, congrArg Prod.fst hp, hbare⟩
  · cases hp : (Program.parse src).1 with
    | error e => exact ⟨e, rfl⟩
    | ok p =>
      obtain ⟨ks, hnone, -⟩ := hsound p hp
      exact absurd hnone hall
  · obtain ⟨s, rest, hks, hend⟩ := Stream.exists_begins ks
    obtain ⟨p, s₁, hp, -, hbare⟩ := (Parse.accepts_program h hend { stream := s } hks).exists_gives
    obtain ⟨p', s₂, hp', -, hbare'⟩ := (Parse.accepts_program h' hend { stream := s } hks).exists_gives
    rw [(hp.det hp').1, hbare'] at hbare
    exact (congrArg Program.decls hbare).symm

/-- Subtractions group from the left, and a text with a lexical error is no program. -/
theorem parse_subtractions : (∃ p, (Program.parse "fun f(): int = 1 - 2 - 3;").1 = .ok p ∧
      p.bare = ⟨[.function .blank "f" [] (.atom .blank .int) (.binary .blank .sub
        (.binary .blank .sub (.lit .blank (.int 1)) (.lit .blank (.int 2))) (.lit .blank (.int 3)))]⟩) ∧
    ∃ e, (Program.parse "fun f(): int = 1 - 2 - 3; ~").1 = .error e := by
  refine ⟨?_, (parse_exactly_grammar _).2.1 (by decide +kernel)⟩
  obtain ⟨ks, hks, h⟩ := (parse_exactly_grammar "fun f(): int = 1 - 2 - 3;").1 (by decide +kernel)
  obtain rfl : ks = [.keyword .fun, .ident "f", .punct '(', .punct ')', .punct ':', .keyword .int,
      .punct '=', .int 1, .punct '-', .int 2, .punct '-', .int 3, .punct ';'] :=
    List.append_cancel_right (hks.symm.trans (by decide +kernel))
  have hlit : ∀ value, Derives (.expr .product (.lit .blank value)) [value.token] := fun _ =>
    .tighter rfl (.tighter rfl (.tighter rfl .lit))
  have hsub : ∀ {lhs rhs ks ks'}, Derives (.expr .sum lhs) ks → Derives (.expr .product rhs) ks' →
      Derives (.expr .sum (.binary .blank .sub lhs rhs)) (ks ++ .punct '-' :: ks') := fun hlhs hrhs =>
    .binary (show BinaryOp.sub.precedence = .sum from rfl) (by decide) rfl hlhs hrhs
  exact (h _).mpr (.declsOne (.function .paramsNone .atomType (.tighter rfl (.tighter rfl (.tighter rfl
    (hsub (hsub (.tighter rfl (hlit _)) (hlit _)) (hlit _)))))))

end MmixCompiler
