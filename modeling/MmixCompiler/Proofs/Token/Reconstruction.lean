import Mathlib.Algebra.GroupWithZero.Nat
import Mathlib.Data.List.Induction
import MmixCompiler.Proofs.Token.Spelling
import MmixCompiler.Proofs.Tree.Scanning

/-! The tokens of a text, with the blanks and comments between them, are the text again, and their places are those of
their first and last characters. No token could have been longer. -/

namespace MmixCompiler

/-- The place after some characters, by counting: newlines, and characters after the last of them. -/
def Position.count (cs : List Char) : Position := ⟨cs.count '\n', (cs.reverse.takeWhile (· ≠ '\n')).length⟩

theorem Position.after_eq_count (cs : List Char) : Position.after {} cs = count cs := by
  induction cs using List.reverseRecOn with
  | nil => rfl
  | append_singleton cs c ih =>
    rw [after_append, ih, after_cons, after_nil, next]
    by_cases hc : c = '\n'
    · simp [count, hc]
    · simp [count, hc]

theorem utf8ByteSize_ofList (cs : List Char) : (String.ofList cs).utf8ByteSize = (cs.map Char.utf8Size).sum := by
  induction cs with
  | nil => rfl
  | cons c cs ih => simp [String.ofList_cons, String.utf8ByteSize_append, ih]

namespace Token

/-- Trivia, and then a comment that only the end of the text ends. -/
def Unended (cs : List Char) : Prop := ∃ gap body, cs = gap ++ '#' :: body ∧ Trivia gap ∧ '\n' ∉ body

/-- Where a token stands in a text that is `left`, the token and `right`. -/
structure Placed (left : List Char) (t : Token) (right : List Char) : Prop where
  start : t.start = .count left
  stop : t.stop = .count (left ++ t.text.toList)
  length : t.length = (t.text.toList.map Char.utf8Size).sum
  followed : ∀ c ∈ right.head?, ¬t.kind.Absorbs c
  /-- No longer part of the text is a token. -/
  longest : ∀ more, more ≠ [] → more <+: right → ∀ kind, (scan (t.text.toList ++ more)).outcome = .ok kind →
    (scan (t.text.toList ++ more)).rest ≠ []

section
variable {cs rest : List Char} {k : Kind}

theorem append_scanDigits (value : Nat) (cs : List Char) :
    (scanDigits value cs).taken ++ (scanDigits value cs).rest = cs := by
  fun_induction scanDigits value cs with
  | case1 => rfl
  | case2 _ c cs _ _ _ r ih => exact congrArg (c :: ·) ih
  | case3 | case4 => rfl

theorem append_scanString (value cs : List Char) : (scanString value cs).taken ++ (scanString value cs).rest = cs := by
  fun_induction scanString value cs <;> simp_all +zetaDelta

theorem append_scanClosing (taken : List Char) (c : Char) (cs : List Char) :
    (scanClosing taken c cs).taken ++ (scanClosing taken c cs).rest = taken ++ cs := by
  fun_cases scanClosing taken c cs <;> simp

theorem append_scanCharacter (cs : List Char) : (scanCharacter cs).taken ++ (scanCharacter cs).rest = '\'' :: cs := by
  fun_cases scanCharacter cs <;> simp [append_scanClosing]

theorem append_scanRelation (c : Char) (cs : List Char) :
    (scanRelation c cs).taken ++ (scanRelation c cs).rest = c :: cs := by
  fun_cases scanRelation c cs <;> simp

theorem append_scan (cs : List Char) : (scan cs).taken ++ (scan cs).rest = cs := by
  cases cs with
  | nil => rfl
  | cons c cs =>
    simp only [scan]
    split_ifs
    · exact append_scanDigits 0 (c :: cs)
    · exact List.takeWhile_append_dropWhile
    · exact append_scanRelation c cs
    · subst c
      exact append_scanCharacter cs
    · subst c
      exact congrArg ('"' :: ·) (append_scanString [] cs)
    · rfl
    · rfl

/-- The scanner `f` takes a token of kind `k` off `cs` that does not go on, and would take it whatever came next that
it does not absorb. -/
def Munches (f : List Char → Scan) (cs : List Char) (k : Kind) : Prop :=
  (∀ c ∈ (f cs).rest.head?, ¬k.Absorbs c) ∧
    ∀ rest : List Char, (∀ c ∈ rest.head?, ¬k.Absorbs c) → (f ((f cs).taken ++ rest)).rest = rest

theorem munches_scanDigits {value : Nat} (h : (scanDigits value cs).outcome = .ok k) :
    Munches (scanDigits value) cs k := by
  have hend : ∀ {value n : Nat} {rest : List Char}, (∀ c ∈ rest.head?, ¬(Kind.int n).Absorbs c) →
      (scanDigits value rest).rest = rest := by
    intro value n rest hrest
    cases rest with
    | nil => rfl
    | cons c rest => rw [scanDigits, if_neg (isDigit_eq ▸ hrest c rfl)]
  unfold Munches
  fun_induction scanDigits value cs with
  | case1 =>
    cases h
    exact ⟨by simp, fun rest hrest => hend hrest⟩
  | case2 value c cs hdigit value' hle r ih =>
    obtain ⟨hnext, hrest⟩ := ih h
    refine ⟨hnext, fun rest hne => ?_⟩
    rw [List.cons_append, scanDigits, if_pos hdigit]
    dsimp only
    rw [if_pos hle]
    exact hrest rest hne
  | case3 => cases h
  | case4 value c cs hdigit =>
    cases h
    refine ⟨?_, fun rest hrest => hend hrest⟩
    rintro _ ⟨⟩
    exact hdigit

theorem munches_scanString {value : List Char} (h : (scanString value cs).outcome = .ok k) :
    Munches (scanString value) cs k := by
  unfold Munches
  fun_induction scanString value cs with
  | case2 value cs =>
    cases h
    exact ⟨fun _ _ => id, fun rest _ => rfl⟩
  | case4 value c cs hquotable r ih =>
    obtain ⟨hnext, hrest⟩ := ih h
    refine ⟨hnext, fun rest hne => ?_⟩
    simp only [List.cons_append, scanString, if_pos hquotable]
    exact hrest rest hne
  | case6 value c cs hquote hlone hescape hquotable r ih =>
    obtain ⟨hnext, hrest⟩ := ih h
    have hback : c ≠ '\\' := by
      intro hc
      cases cs with
      | nil => exact hlone hc rfl
      | cons d cs => exact hescape d cs hc rfl
    refine ⟨hnext, fun rest hne => ?_⟩
    rw [List.cons_append, scanString, if_pos hquotable]
    · exact hrest rest hne
    · exact hquote
    · exact fun hc => absurd hc hback
    · exact fun _ _ hc => absurd hc hback
  | case1 | case3 | case5 | case7 => cases h

theorem munches_scanName (cs : List Char) {k : Kind} (h : (scanName cs).outcome = .ok k) : Munches scanName cs k := by
  have habsorbs : ∀ c, k.Absorbs c ↔ isNamePart c := by
    intro c
    rw [isNamePart_iff]
    simp only [scanName] at h
    split at h <;> cases h <;> exact Iff.rfl
  refine ⟨fun c hc => ?_, fun rest hrest => ?_⟩
  · have hstop := List.head?_dropWhile_not isNamePart cs
    rw [show (cs.dropWhile isNamePart).head? = some c from hc] at hstop
    rw [habsorbs]
    exact Bool.eq_false_iff.mp hstop
  · have hall : ∀ c ∈ cs.takeWhile isNamePart, isNamePart c := fun c => List.mem_takeWhile_imp
    have hnone : rest.dropWhile isNamePart = rest := by
      cases rest with
      | nil => rfl
      | cons c rest => exact List.dropWhile_cons_of_neg (mt (habsorbs c).mpr (hrest c rfl))
    exact (List.dropWhile_append_of_pos hall).trans hnone

theorem munches_scanRelation {c : Char} (hc : c ∈ relations) (h : (scanRelation c cs).outcome = .ok k) :
    Munches scan (c :: cs) k := by
  have hscan := scan_relation hc
  unfold Munches
  rw [hscan]
  revert h
  fun_cases scanRelation c cs with
  | case1 cs kind =>
    intro h
    have hkind : ∀ d, ¬k.Absorbs d := by
      obtain rfl : kind = k := Except.ok.inj h
      unfold kind
      split_ifs <;> exact fun _ => id
    refine ⟨fun d _ => hkind d, fun rest _ => ?_⟩
    rw [List.cons_append, hscan]
    rfl
  | case2 _ hne =>
    intro h
    obtain rfl : .punct c = k := Except.ok.inj h
    refine ⟨fun d hd habsorbs => ?_, fun rest hrest => ?_⟩
    · obtain ⟨cs', rfl⟩ := List.head?_eq_some_iff.mp hd
      exact hne cs' (by rw [habsorbs.2])
    · rw [List.singleton_append, hscan, scanRelation]
      rintro tail rfl
      exact hrest '=' rfl ⟨hc, rfl⟩

theorem munches_scanCharacter (h : (scanCharacter cs).outcome = .ok k) : Munches scan ('\'' :: cs) k := by
  have hclosing : ∀ {taken c cs}, (scanClosing taken c cs).outcome = .ok k → ∃ rest, cs = '\'' :: rest ∧
      k = .char c := by
    intro taken c cs h
    unfold scanClosing at h
    split at h
    · next rest => exact ⟨rest, rfl, (Except.ok.inj h).symm⟩
    · cases h
  have hscan : ∀ cs, scan ('\'' :: cs) = scanCharacter cs := fun _ => rfl
  unfold Munches
  rw [hscan]
  revert h
  fun_cases scanCharacter cs with
  | case3 c cs hquotable =>
    intro h
    obtain ⟨rest, rfl, rfl⟩ := hclosing h
    refine ⟨fun _ _ => id, fun rest' _ => ?_⟩
    simp [scanClosing, hscan, scanCharacter, hquotable]
  | case6 c cs hlone hescape hquote hquotable =>
    intro h
    obtain ⟨rest, rfl, rfl⟩ := hclosing h
    refine ⟨fun _ _ => id, fun rest' _ => ?_⟩
    have hback : c ≠ '\\' := fun hc => hescape _ _ hc rfl
    have htaken : scanCharacter (c :: '\'' :: rest') = scanClosing ['\'', c] c ('\'' :: rest') := by
      rw [scanCharacter, if_pos hquotable] <;> simp [hback]
      exact hquote
    exact congrArg Scan.rest htaken
  | case1 | case2 | case4 | case5 | case7 =>
    intro h
    cases h

theorem Munches.of_eq {f : List Char → Scan} {c : Char} (h : Munches f (c :: cs) k)
    (hscan : ∀ cs, scan (c :: cs) = f (c :: cs)) (htaken : ∃ taken, (f (c :: cs)).taken = c :: taken) :
    Munches scan (c :: cs) k := by
  obtain ⟨taken, htaken⟩ := htaken
  unfold Munches at h ⊢
  rw [htaken] at h
  rw [hscan, htaken]
  simpa only [List.cons_append, hscan] using h

theorem munches_scan (h : (scan cs).outcome = .ok k) : Munches scan cs k := by
  cases cs with
  | nil =>
    cases h
    refine ⟨by simp [scan], fun rest hrest => ?_⟩
    cases rest with
    | nil => rfl
    | cons c rest => exact absurd trivial (hrest c rfl)
  | cons c cs =>
    by_cases hdigit : isDigit c
    · have hscan : ∀ cs, scan (c :: cs) = scanDigits 0 (c :: cs) := fun cs => by rw [scan, if_pos hdigit]
      rw [hscan] at h
      refine (munches_scanDigits h).of_eq hscan ?_
      simp only [scanDigits, hdigit, if_true] at h ⊢
      split_ifs at h ⊢
      exact ⟨_, rfl⟩
    by_cases hname : isNameStart c
    · have hscan : ∀ cs, scan (c :: cs) = scanName (c :: cs) := fun cs => by rw [scan, if_neg hdigit, if_pos hname]
      have hpart : isNamePart c := by simp [isNamePart, hname]
      rw [hscan] at h
      exact (munches_scanName _ h).of_eq hscan ⟨_, List.takeWhile_cons_of_pos hpart⟩
    by_cases hrelation : relations.contains c
    · have hmem := List.contains_iff_mem.mp hrelation
      exact munches_scanRelation hmem (scan_relation hmem cs ▸ h)
    by_cases hquote : c = '\''
    · subst c
      exact munches_scanCharacter h
    by_cases hdouble : c = '"'
    · subst c
      exact munches_scanString h
    have hscan : ∀ cs, scan (c :: cs) = if symbols.contains c then ⟨.ok (.punct c), [c], cs, false⟩
        else ⟨.error (.illegalCharacter c), [], c :: cs, false⟩ := fun cs => by
      rw [scan, if_neg hdigit, if_neg hname, if_neg hrelation, if_neg hquote, if_neg hdouble]
    rw [hscan] at h
    split_ifs at h with hsymbol
    cases h
    refine ⟨fun d _ habsorbs => hrelation (List.contains_iff_mem.mpr habsorbs.1), fun rest _ => ?_⟩
    rw [hscan, if_pos hsymbol, List.singleton_append, hscan, if_pos hsymbol]

theorem Trivia.cons_comment {c : Char} (hc : c ≠ '\n') (h : Trivia ('#' :: cs)) : Trivia ('#' :: c :: cs) := by
  generalize hgap : '#' :: cs = gap at h
  cases h with
  | nil => cases hgap
  | blank hblank =>
    cases hgap
    exact absurd hblank (by decide)
  | @comment body rest hbody hrest =>
    cases hgap
    exact @Trivia.comment (c :: body) rest (by simpa [hbody] using Ne.symm hc) hrest

theorem Unended.cons_comment {c : Char} (hc : c ≠ '\n') (h : Unended ('#' :: cs)) : Unended ('#' :: c :: cs) := by
  obtain ⟨gap, body, hgap, htrivia, hbody⟩ := h
  cases gap with
  | nil =>
    cases hgap
    exact ⟨[], c :: cs, rfl, .nil, by simpa [hbody] using Ne.symm hc⟩
  | cons d gap =>
    cases hgap
    exact ⟨'#' :: c :: gap, body, rfl, htrivia.cons_comment hc, hbody⟩

theorem Unended.append (front : List Char) (hfront : ∀ {gap}, Trivia gap → Trivia (front ++ gap)) (h : Unended cs) :
    Unended (front ++ cs) := by
  obtain ⟨gap, body, rfl, hgap, hbody⟩ := h
  exact ⟨front ++ gap, body, (List.append_assoc ..).symm, hfront hgap, hbody⟩

/-- The skipped characters are trivia, unless a comment goes on to the end of the text. In an open comment this holds
with the number sign before it. -/
theorem trivia_take (isOpen : Bool) (cs : List Char) :
    let gap := (if isOpen then ['#'] else []) ++ cs.take (triviaLength isOpen cs)
    Trivia gap ∨ Unended gap ∧ cs.drop (triviaLength isOpen cs) = [] := by
  induction cs generalizing isOpen with
  | nil =>
    cases isOpen with
    | false => exact .inl .nil
    | true => exact .inr ⟨⟨[], [], rfl, .nil, by simp⟩, rfl⟩
  | cons c cs ih =>
    cases isOpen with
    | true =>
      by_cases hc : c = '\n'
      · subst c
        have hended : ∀ {gap}, Trivia gap → Trivia ('#' :: '\n' :: gap) := fun h => @Trivia.comment [] _ (by simp) h
        exact (ih false).imp hended (And.imp_left (Unended.append ['#', '\n'] hended))
      · simp only [triviaLength, if_neg hc]
        exact (ih true).imp (Trivia.cons_comment hc) (And.imp_left (Unended.cons_comment hc))
    | false =>
      by_cases hblank : isBlank c
      · have hcons : ∀ {gap}, Trivia gap → Trivia (c :: gap) := fun h => .blank (isBlank_iff.mp hblank) h
        simp only [triviaLength, if_pos hblank]
        exact (ih false).imp hcons (And.imp_left (Unended.append [c] hcons))
      by_cases hhash : c = '#'
      · subst c
        exact ih true
      · simp only [triviaLength, if_neg hblank, if_neg hhash]
        exact .inl .nil

theorem eq_nil_of_scan_eos (h : (scan cs).outcome = .ok .eos) : cs = [] := by
  have hdigits : ∀ value cs, (scanDigits value cs).outcome ≠ .ok .eos := by
    intro value cs
    fun_induction scanDigits value cs <;> simp_all +zetaDelta
  have hname : ∀ cs, (scanName cs).outcome ≠ .ok .eos := by
    intro cs
    simp only [scanName]
    split <;> simp
  have hrelation : ∀ c cs, (scanRelation c cs).outcome ≠ .ok .eos := by
    intro c cs
    fun_cases scanRelation c cs with
    | case1 cs kind =>
      unfold kind
      split_ifs <;> simp
    | case2 => simp
  have hstring : ∀ value cs, (scanString value cs).outcome ≠ .ok .eos := by
    intro value cs
    fun_induction scanString value cs <;> simp_all +zetaDelta
  have hcharacter : ∀ cs, (scanCharacter cs).outcome ≠ .ok .eos := by
    intro cs
    have hclosing : ∀ taken c cs, (scanClosing taken c cs).outcome ≠ .ok .eos := by
      intro taken c cs
      fun_cases scanClosing taken c cs <;> simp
    fun_cases scanCharacter cs <;> simp [hclosing]
  cases cs with
  | nil => rfl
  | cons c cs =>
    rw [scan] at h
    split_ifs at h
    · exact absurd h (hdigits 0 _)
    · exact absurd h (hname _)
    · exact absurd h (hrelation c cs)
    · exact absurd h (hcharacter cs)
    · exact absurd h (hstring [] cs)
    · cases h

end

end Token

namespace Scanner

open Token

/-- The tokens that are read up to the end of the text, with any looks ahead. -/
inductive Reads : Scanner → List Token → Prop where
  | stop {s : Scanner} {t : Token} (ht : s.next.1.outcome = .ok t) (heos : t.kind = .eos) : Reads s [t]
  | next {s : Scanner} {t : Token} {ts : List Token} (ht : s.next.1.outcome = .ok t) (hne : t.kind ≠ .eos)
    (h : Reads s.next.2 ts) : Reads s (t :: ts)
  | peek {s : Scanner} {ts : List Token} (h : Reads s.peek.2 ts) : Reads s ts

/-- What a scanner reads next comes after `left` and before nothing but `right`. A token may be held. -/
def Between (s : Scanner) (left right : List Char) : Prop :=
  ∃ s₀ : Scanner, s.next = s₀.advance ∧ s₀.held = none ∧ s₀.position = .count left ∧ s₀.rest = right

variable {s : Scanner} {left right : List Char} {t : Token} {ts : List Token}

theorem between_ofString (src : String) : (Scanner.ofString src).Between [] src.toList := ⟨_, rfl, rfl, rfl, rfl⟩

theorem next_peek (s : Scanner) : s.peek.2.next = s.next := by
  rcases s with ⟨rest, position, atEnd, _ | lexeme⟩ <;> rfl

theorem Between.peek (h : s.Between left right) : s.peek.2.Between left right := by
  obtain ⟨s₀, hnext, h⟩ := h
  exact ⟨s₀, (next_peek s).trans hnext, h⟩

theorem advance_eq_ok (h : s.advance.1.outcome = .ok t) : let skipped := triviaLength false s.rest
    let r := scan (s.rest.drop skipped)
    let start := s.position.after (s.rest.take skipped)
    r.outcome = .ok t.kind ∧ t = ⟨t.kind, .ofList r.taken, start, start.after r.taken⟩ := by
  simp only [advance] at h
  split at h
  · next kind hkind =>
    cases h
    exact ⟨hkind, rfl⟩
  · cases h

theorem Between.next (h : s.Between left right) (ht : s.next.1.outcome = .ok t) : ∃ gap rest,
    right = gap ++ (t.text.toList ++ rest) ∧ (Trivia gap ∨ Unended gap ∧ t.kind = .eos) ∧
      (t.kind = .eos → t.text = "" ∧ rest = []) ∧ t.Placed (left ++ gap) rest ∧
        s.next.2.Between (left ++ gap ++ t.text.toList) rest := by
  obtain ⟨s₀, hnext, hheld, hposition, rfl⟩ := h
  rw [hnext] at ht ⊢
  obtain ⟨hkind, htoken⟩ := advance_eq_ok ht
  have hgap := trivia_take false s₀.rest
  have hstop : s₀.advance.2.position = t.stop := by rw [htoken]; rfl
  have hrest : s₀.advance.2.rest = (scan (s₀.rest.drop (triviaLength false s₀.rest))).rest := rfl
  generalize triviaLength false s₀.rest = skipped at *
  set body := s₀.rest.drop skipped
  have hmunches := munches_scan hkind
  have htext : t.text.toList = (scan body).taken := by rw [htoken, String.toList_ofList]
  have hbody : t.text.toList ++ (scan body).rest = body := by rw [htext, append_scan]
  have hstart : t.start = .count (left ++ s₀.rest.take skipped) := by
    rw [htoken, hposition, ← Position.after_eq_count, ← Position.after_append, Position.after_eq_count]
  have hend : t.stop = .count (left ++ s₀.rest.take skipped ++ t.text.toList) := by
    rw [← Position.after_eq_count, Position.after_append, Position.after_eq_count, ← hstart, htext, htoken]
  refine ⟨s₀.rest.take skipped, (scan body).rest, ?_, ?_, fun heos => ?_, ⟨hstart, hend, ?_, hmunches.1, ?_⟩, ?_⟩
  · rw [hbody, List.take_append_drop]
  · refine hgap.imp_right fun ⟨hunended, hnil⟩ => ⟨hunended, ?_⟩
    rw [show body = [] from hnil] at hkind
    exact (Except.ok.inj hkind).symm
  · have hnil := eq_nil_of_scan_eos (heos ▸ hkind)
    rw [hnil] at htext
    exact ⟨String.toList_eq_nil_iff.mp htext, by rw [hnil]; rfl⟩
  · rw [Token.length, ← utf8ByteSize_ofList, String.ofList_toList]
  · intro more hmore hprefix kind _
    rw [htext, hmunches.2 more]
    · exact hmore
    · obtain ⟨after, hafter⟩ := hprefix
      have hfollowed := hmunches.1
      rwa [← hafter, List.head?_append_of_ne_nil _ hmore] at hfollowed
  · have hnone : s₀.advance.2.held = none := hheld
    exact ⟨s₀.advance.2, by rw [Scanner.next, hnone], hnone, hstop.trans hend, hrest⟩

end Scanner

namespace Token

/-- The text of tokens and of what stands before each of them. -/
def joined (pieces : List (List Char × Token)) : List Char := pieces.flatMap fun x => x.1 ++ x.2.text.toList

/-- A text after `left` is made of tokens, each with trivia before it, and trivia after them. The places of the tokens
are counted from the beginning of `left`. -/
structure MakeUp (left text : List Char) (pieces : List (List Char × Token)) (trailing : List Char)
    (last : Token) : Prop where
  text_eq : text = joined pieces ++ trailing
  trivia : ∀ x ∈ pieces, Trivia x.1
  trivia_trailing : Trivia trailing ∨ Unended trailing
  kind_ne : ∀ x ∈ pieces, x.2.kind ≠ .eos
  placed : ∀ front x back, pieces = front ++ x :: back → x.2.Placed (left ++ joined front ++ x.1)
    (joined back ++ trailing)
  ends : last.kind = .eos ∧ last.text = "" ∧ last.Placed (left ++ text) []

theorem MakeUp.cons {left gap rest trailing : List Char} {t last : Token} {pieces : List (List Char × Token)}
    (hgap : Trivia gap) (hkind : t.kind ≠ .eos) (ht : t.Placed (left ++ gap) rest)
    (h : MakeUp (left ++ gap ++ t.text.toList) rest pieces trailing last) :
    MakeUp left (gap ++ (t.text.toList ++ rest)) ((gap, t) :: pieces) trailing last where
  text_eq := by
    rw [h.text_eq]
    simp [joined]
  trivia := List.forall_mem_cons.mpr ⟨hgap, h.trivia⟩
  trivia_trailing := h.trivia_trailing
  kind_ne := List.forall_mem_cons.mpr ⟨hkind, h.kind_ne⟩
  placed := by
    intro front x back hpieces
    cases front with
    | nil =>
      cases hpieces
      rw [h.text_eq] at ht
      simpa [joined] using ht
    | cons y front =>
      cases hpieces
      simpa [joined] using h.placed front x back rfl
  ends := by simpa using h.ends

end Token

open Token

theorem Scanner.Between.makeUp {s : Scanner} {left right : List Char} {ts : List Token} (h : s.Between left right)
    (hreads : s.Reads ts) :
    ∃ pieces trailing last, ts = pieces.map Prod.snd ++ [last] ∧ MakeUp left right pieces trailing last := by
  induction hreads generalizing left right with
  | @stop s t ht heos =>
    obtain ⟨gap, rest, rfl, hgap, hend, hplaced, -⟩ := h.next ht
    obtain ⟨htext, rfl⟩ := hend heos
    refine ⟨[], gap, t, rfl, ?_⟩
    rw [htext]
    exact ⟨by simp [joined], by simp, hgap.imp_right And.left, by simp, by simp, heos, htext, by simpa using hplaced⟩
  | @next s t ts ht hne _ ih =>
    obtain ⟨gap, rest, rfl, hgap, -, hplaced, hbetween⟩ := h.next ht
    obtain ⟨pieces, trailing, last, rfl, hmake⟩ := ih hbetween
    have htrivia : Trivia gap := hgap.resolve_right fun hunended => hne hunended.2
    exact ⟨(gap, t) :: pieces, trailing, last, rfl, hmake.cons htrivia hne hplaced⟩
  | peek _ ih => exact ih h.peek

/-- Tokens and what stands between them are the text again. -/
theorem Scanner.tokens_make_up_source (src : String) {ts : List Token} (h : (Scanner.ofString src).Reads ts) :
    ∃ pieces trailing last, ts = pieces.map Prod.snd ++ [last] ∧ MakeUp [] src.toList pieces trailing last :=
  (between_ofString src).makeUp h

/-- Tokens next to each other, characters of more than one byte, and a comment without an end. -/
def Scanner.crowded : String := "x<=\t# é\n 12'\\''=#z"

def Scanner.crowdedTokens : List Token :=
  [⟨.ident "x", "x", ⟨0, 0⟩, ⟨0, 1⟩⟩, ⟨.le, "<=", ⟨0, 1⟩, ⟨0, 3⟩⟩, ⟨.int 12, "12", ⟨1, 1⟩, ⟨1, 3⟩⟩,
    ⟨.char '\'', "'\\''", ⟨1, 3⟩, ⟨1, 7⟩⟩, ⟨.punct '=', "=", ⟨1, 7⟩, ⟨1, 8⟩⟩, ⟨.eos, "", ⟨1, 10⟩, ⟨1, 10⟩⟩]

theorem Scanner.crowded_made_up : (Scanner.ofString crowded).Reads crowdedTokens ∧
    ∃ pieces trailing last, crowdedTokens = pieces.map Prod.snd ++ [last] ∧
      MakeUp [] crowded.toList pieces trailing last := by
  have hreads : (Scanner.ofString crowded).Reads crowdedTokens := by
    refine .peek (.next (by decide +kernel) (by decide) (.next (by decide +kernel) (by decide) (.peek (.peek ?_))))
    refine .next (by decide +kernel) (by decide) (.next (by decide +kernel) (by decide) ?_)
    exact .next (by decide +kernel) (by decide) (.peek (.stop (by decide +kernel) rfl))
  exact ⟨hreads, tokens_make_up_source crowded hreads⟩

end MmixCompiler
