import Mathlib.Algebra.Group.Nat.Defs
import Mathlib.Data.List.TakeWhile
import Mathlib.Logic.Function.Iterate
import MmixCompiler.Token.Scanner

/-! Every kind of token has a spelling, and reading a text gives back the kinds whose spellings it is
made of, as long as blanks or comments keep them apart. -/

namespace MmixCompiler

open List

-- there are finitely many characters, but a list of them is gone through as a list
local instance decidableForallMemChar {p : Char → Prop} [DecidablePred p] (cs : List Char) :
    Decidable (∀ c ∈ cs, p c) := List.decidableBAll p cs

theorem Keyword.ofText?_text (word : Keyword) : Keyword.ofText? word.text = some word := by
  cases word <;> decide

theorem Keyword.exists_cons (word : Keyword) :
    ∃ c cs, word.text.toList = c :: cs ∧ Token.isNameStart c ∧ ∀ d ∈ cs, Token.isNamePart d := by
  cases word <;> exact ⟨_, _, rfl, by decide, by decide⟩

namespace Token

/-- Text between tokens: blanks, and comments up to the newline that ends them. -/
inductive Trivia : List Char → Prop where
  | nil : Trivia []
  | blank {c : Char} {cs : List Char} (hc : c ∈ [' ', '\t', '\r', '\n']) (hcs : Trivia cs) : Trivia (c :: cs)
  | comment {body cs : List Char} (hbody : '\n' ∉ body) (hcs : Trivia cs) : Trivia ('#' :: (body ++ '\n' :: cs))

/-- A character of a literal that stands between two of `quote`. -/
def escape (quote c : Char) : List Char := if c = quote ∨ c = '\\' then ['\\', c] else [c]

/-- How a kind is written. -/
def Kind.spelling : Kind → List Char
  | .ident name => name.toList
  | .int value => Nat.toDigits 10 value
  | .char value => '\'' :: (escape '\'' value ++ ['\''])
  | .str value => '"' :: (value.toList.flatMap (escape '"') ++ ['"'])
  | .keyword word => word.text.toList
  | .eq => ['=', '=']
  | .ne => ['!', '=']
  | .le => ['<', '=']
  | .ge => ['>', '=']
  | .punct symbol => [symbol]
  | .eos => []

def Printable (c : Char) : Prop := 32 ≤ c.toNat ∧ c.toNat ≤ 126

/-- The kinds that can be written: names that are not reserved, integers that fit words, literals of
printable characters, and all words and symbols of the language. -/
def Kind.Spellable : Kind → Prop
  | .ident name =>
    (∃ c cs, name.toList = c :: cs ∧ (c.isAlpha ∨ c = '_') ∧ ∀ d ∈ cs, d.isAlphanum ∨ d = '_') ∧
      ∀ word : Keyword, word.text ≠ name
  | .int value => value < 2 ^ 63
  | .char value => Printable value
  | .str value => ∀ c ∈ value.toList, Printable c
  | .punct symbol =>
    symbol ∈ ['|', '^', '&', '!', '=', '<', '>', '+', '-', '*', '/', '%', '$', '@', '.', ',', ':', ';', '[', ']',
      '(', ')', '\x7b', '\x7d']
  | .keyword _ | .eq | .ne | .le | .ge => True
  | .eos => False

/-- A kind of token that goes on with a character if it comes next. Nothing comes after the end of a text. -/
def Kind.Absorbs : Kind → Char → Prop
  | .ident _, c | .keyword _, c => c.isAlphanum ∨ c = '_'
  | .int _, c => c.isDigit
  | .punct symbol, c => symbol ∈ ['!', '=', '<', '>'] ∧ c = '='
  | .eos, _ => True
  | .char _, _ | .str _, _ | .eq, _ | .ne, _ | .le, _ | .ge, _ => False

/-- The token does not go on in the text after it. -/
def Kind.Ends (k : Kind) (rest : List Char) : Prop := ∀ c ∈ rest.head?, ¬k.Absorbs c

/-- Characters that begin trivia. -/
def Parting (c : Char) : Prop := isBlank c ∨ c = '#'

/-- The text is over or goes on with trivia. -/
def Parted (rest : List Char) : Prop := ∀ c ∈ rest.head?, Parting c

/-- A scan that finds this kind, takes its spelling and leaves `rest`. -/
structure Scan.Finds (r : Scan) (k : Kind) (rest : List Char) : Prop where
  outcome : r.outcome = .ok k
  taken : r.taken = k.spelling
  rest : r.rest = rest

section
variable {c : Char} {cs rest : List Char}

theorem isDigit_eq : isDigit c = c.isDigit := rfl

theorem isNameStart_iff : isNameStart c ↔ c.isAlpha ∨ c = '_' := by
  have halpha : c.isAlpha = (decide ('A' ≤ c ∧ c ≤ 'Z') || ('a' ≤ c && c ≤ 'z')) := rfl
  rw [isNameStart, halpha]
  grind

theorem isNamePart_iff : isNamePart c ↔ c.isAlphanum ∨ c = '_' := by
  rw [isNamePart, Bool.or_eq_true, isNameStart_iff, isDigit_eq, Char.isAlphanum, Bool.or_eq_true]
  exact or_right_comm

theorem isQuotable_iff : isQuotable c ↔ Printable c := by
  simp [isQuotable, Printable, Char.le_def, UInt32.le_iff_toNat_le]

theorem isBlank_iff : isBlank c ↔ c ∈ [' ', '\t', '\r', '\n'] := by
  simp only [isBlank, Bool.or_eq_true, decide_eq_true_eq, mem_cons, not_mem_nil, or_false]
  grind

theorem not_isDigit_of_isNameStart (h : isNameStart c) : ¬isDigit c := by
  simp only [isNameStart, isDigit, Char.le_def, UInt32.le_iff_toNat_le, Bool.or_eq_true, Bool.and_eq_true,
    decide_eq_true_eq] at h ⊢
  rintro ⟨h1, h2⟩
  rcases h with (⟨h3, _⟩ | ⟨h3, _⟩) | rfl
  · exact absurd (h3.trans h2) (by decide)
  · exact absurd (h3.trans h2) (by decide)
  · exact absurd h2 (by decide)

theorem Parting.not_isNamePart (h : Parting c) : ¬isNamePart c := by
  rcases h with hblank | rfl
  · exact (show ∀ c ∈ [' ', '\t', '\r', '\n'], ¬isNamePart c by decide) c (isBlank_iff.mp hblank)
  · decide

theorem Parting.not_isDigit (h : Parting c) : ¬isDigit c :=
  fun hdigit => h.not_isNamePart (by simp [isNamePart, hdigit])

theorem Parted.ends {k : Kind} (h : Parted rest) (hk : k.Spellable) : k.Ends rest := by
  intro c hc habsorbs
  have hparting := h c hc
  cases k with
  | ident | keyword => exact hparting.not_isNamePart (isNamePart_iff.mpr habsorbs)
  | int => exact hparting.not_isDigit habsorbs
  | punct =>
    obtain ⟨-, rfl⟩ := habsorbs
    exact absurd hparting (show ¬(isBlank '=' ∨ '=' = '#') by decide)
  | char | str | eq | ne | le | ge => exact habsorbs
  | eos => exact hk

theorem scan_name (hc : isNameStart c) (hcs : ∀ d ∈ cs, isNamePart d)
    (hrest : ∀ d ∈ rest.head?, ¬(d.isAlphanum ∨ d = '_')) :
    scan (c :: cs ++ rest) = ⟨.ok ((Keyword.ofText? (.ofList (c :: cs))).elim (.ident (.ofList (c :: cs))) .keyword),
      c :: cs, rest, rest.isEmpty⟩ := by
  have hall : ∀ d ∈ c :: cs, isNamePart d := forall_mem_cons.mpr ⟨by simp [isNamePart, hc], hcs⟩
  obtain ⟨htake, hdrop⟩ : rest.takeWhile isNamePart = [] ∧ rest.dropWhile isNamePart = rest := by
    cases rest with
    | nil => exact ⟨rfl, rfl⟩
    | cons d ds =>
      have hd : ¬isNamePart d := isNamePart_iff.not.mpr (hrest d rfl)
      exact ⟨takeWhile_cons_of_neg hd, dropWhile_cons_of_neg hd⟩
  rw [cons_append, scan, if_neg (not_isDigit_of_isNameStart hc), if_pos hc, ← cons_append, scanName,
    takeWhile_append_of_pos hall, dropWhile_append_of_pos hall, htake, hdrop, append_nil]
  cases Keyword.ofText? (.ofList (c :: cs)) <;> rfl

theorem finds_ident {name : String} (h : (Kind.ident name).Spellable) (hrest : (Kind.ident name).Ends rest) :
    (scan (name.toList ++ rest)).Finds (.ident name) rest := by
  obtain ⟨⟨c, cs, hname, hc, hcs⟩, hword⟩ := h
  have hfree : Keyword.ofText? name = none := by simp [Keyword.ofText?, hword]
  rw [hname, scan_name (isNameStart_iff.mpr hc) (fun d hd => isNamePart_iff.mpr (hcs d hd)) hrest, ← hname,
    String.ofList_toList, hfree]
  exact ⟨rfl, rfl, rfl⟩

theorem finds_keyword (word : Keyword) (hrest : (Kind.keyword word).Ends rest) :
    (scan (word.text.toList ++ rest)).Finds (.keyword word) rest := by
  obtain ⟨c, cs, htext, hc, hcs⟩ := Keyword.exists_cons word
  rw [htext, scan_name hc hcs hrest, ← htext, String.ofList_toList, Keyword.ofText?_text]
  exact ⟨rfl, rfl, rfl⟩

theorem le_ofDigitChars (ds : List Char) (value : Nat) : value ≤ Nat.ofDigitChars 10 ds value := by
  induction ds generalizing value with
  | nil => exact Nat.le_refl _
  | cons d ds ih =>
    rw [Nat.ofDigitChars_cons]
    exact Nat.le_trans (by omega) (ih _)

/-- Digits are taken as long as their value fits a word, so all of them if the whole number does. -/
theorem scanDigits_append {ds : List Char} {value : Nat} (hds : ∀ d ∈ ds, isDigit d)
    (hrest : ∀ d ∈ rest.head?, ¬d.isDigit)
    (hfits : (Nat.ofDigitChars 10 ds value : Int) ≤ Word.greatest) :
    scanDigits value (ds ++ rest) = ⟨.ok (.int (Nat.ofDigitChars 10 ds value)), ds, rest, rest.isEmpty⟩ := by
  induction ds generalizing value with
  | nil =>
    cases rest with
    | nil => rfl
    | cons c cs => simp [scanDigits, isDigit_eq, hrest c rfl]
  | cons d ds ih =>
    obtain ⟨hd, hds⟩ := forall_mem_cons.mp hds
    rw [Nat.ofDigitChars_cons, Nat.mul_comm] at hfits ⊢
    have hle := le_ofDigitChars ds (value * 10 + (d.toNat - '0'.toNat))
    rw [cons_append, scanDigits, if_pos hd, if_pos (by omega), ih hds hfits]

theorem finds_int {value : Nat} (h : value < 2 ^ 63) (hrest : (Kind.int value).Ends rest) :
    (scan (Nat.toDigits 10 value ++ rest)).Finds (.int value) rest := by
  have hdigits : ∀ d ∈ Nat.toDigits 10 value, isDigit d := fun d hd =>
    Nat.isDigit_of_mem_toDigits (by decide) (by decide) hd
  have hfits : (Nat.ofDigitChars 10 (Nat.toDigits 10 value) 0 : Int) ≤ Word.greatest := by
    rw [Nat.ofDigitChars_ten_toDigits, Word.greatest]
    omega
  have hscan := scanDigits_append hdigits hrest hfits
  obtain ⟨d, ds, hds⟩ := exists_cons_of_ne_nil (Nat.toDigits_ne_nil (b := 10) (n := value))
  rw [hds, cons_append, scan, if_pos (hdigits d (by simp [hds])), ← cons_append, ← hds, hscan,
    Nat.ofDigitChars_ten_toDigits]
  exact ⟨rfl, rfl, rfl⟩

theorem scanRelation_of_ne_equals (h : '=' ∉ rest.head?) :
    scanRelation c rest = ⟨.ok (.punct c), [c], rest, rest.isEmpty⟩ := by
  unfold scanRelation
  split
  · exact absurd rfl h
  · rfl

theorem Kind.Spellable.mem_symbols (h : (Kind.punct c).Spellable) : c ∈ symbols ∨ c ∈ relations := by
  simp only [Kind.Spellable, symbols, relations, mem_cons, not_mem_nil, or_false] at h ⊢
  grind

theorem scan_relation (hc : c ∈ relations) (cs : List Char) : scan (c :: cs) = scanRelation c cs := by
  obtain ⟨hdigit, hname⟩ : ¬isDigit c ∧ ¬isNameStart c :=
    (show ∀ c ∈ relations, ¬isDigit c ∧ ¬isNameStart c by decide) c hc
  rw [scan, if_neg hdigit, if_neg hname, if_pos (contains_iff_mem.mpr hc)]

theorem finds_punct (h : (Kind.punct c).Spellable) (hrest : (Kind.punct c).Ends rest) :
    (scan (c :: rest)).Finds (.punct c) rest := by
  rcases h.mem_symbols with hsymbol | hrelation
  · obtain ⟨hdigit, hname, hrel, hquote, hdouble⟩ :
        ¬isDigit c ∧ ¬isNameStart c ∧ ¬relations.contains c ∧ c ≠ '\'' ∧ c ≠ '"' :=
      (show ∀ c ∈ symbols, ¬isDigit c ∧ ¬isNameStart c ∧ ¬relations.contains c ∧ c ≠ '\'' ∧ c ≠ '"' by decide) c hsymbol
    rw [scan, if_neg hdigit, if_neg hname, if_neg hrel, if_neg hquote, if_neg hdouble,
      if_pos (contains_iff_mem.mpr hsymbol)]
    exact ⟨rfl, rfl, rfl⟩
  · rw [scan_relation hrelation, scanRelation_of_ne_equals fun heq => hrest '=' heq ⟨hrelation, rfl⟩]
    exact ⟨rfl, rfl, rfl⟩

theorem finds_char (h : Printable c) : (scan ('\'' :: (escape '\'' c ++ '\'' :: rest))).Finds (.char c) rest := by
  have hquotable := isQuotable_iff.mpr h
  have hscan : scan ('\'' :: (escape '\'' c ++ '\'' :: rest)) = scanCharacter (escape '\'' c ++ '\'' :: rest) := rfl
  rw [hscan]
  by_cases hc : c = '\'' ∨ c = '\\'
  · simp only [escape, if_pos hc, cons_append, nil_append, scanCharacter, if_pos hquotable, scanClosing]
    exact ⟨rfl, by simp [Kind.spelling, escape, hc], rfl⟩
  · obtain ⟨hquote, hback⟩ := not_or.mp hc
    have hplain : scanCharacter (c :: '\'' :: rest) = ⟨.ok (.char c), ['\'', c, '\''], rest, false⟩ := by
      rw [scanCharacter, if_pos hquotable] <;> simp [scanClosing, hquote, hback]
    rw [escape, if_neg hc, singleton_append, hplain]
    exact ⟨rfl, by simp [Kind.spelling, escape, hc], rfl⟩

/-- A string literal is read back whatever quotes and backslashes it contains. -/
theorem scanString_escape {value : List Char} (hcs : ∀ c ∈ cs, Printable c) :
    scanString value (cs.flatMap (escape '"') ++ '"' :: rest) =
      ⟨.ok (.str (String.ofList (value.reverse ++ cs))), cs.flatMap (escape '"') ++ ['"'], rest, false⟩ := by
  induction cs generalizing value with
  | nil => simp [scanString]
  | cons c cs ih =>
    obtain ⟨hc, hcs⟩ := forall_mem_cons.mp hcs
    have hquotable := isQuotable_iff.mpr hc
    have hstep := @ih (c :: value) hcs
    rw [reverse_cons, append_assoc, singleton_append] at hstep
    by_cases hesc : c = '"' ∨ c = '\\'
    · simp only [flatMap_cons, escape, if_pos hesc, cons_append, nil_append, scanString, if_pos hquotable]
      rw [hstep]
    · obtain ⟨hquote, hback⟩ := not_or.mp hesc
      simp only [flatMap_cons, escape, if_neg hesc, cons_append, nil_append]
      rw [scanString, if_pos hquotable, hstep] <;> simp [hquote, hback]

theorem finds_str {value : String} (h : ∀ c ∈ value.toList, Printable c) :
    (scan ('"' :: (value.toList.flatMap (escape '"') ++ '"' :: rest))).Finds (.str value) rest := by
  have hscan : ∀ cs, scan ('"' :: cs) = { scanString [] cs with taken := '"' :: (scanString [] cs).taken } :=
    fun _ => rfl
  rw [hscan, scanString_escape h, reverse_nil, nil_append, String.ofList_toList]
  exact ⟨rfl, rfl, rfl⟩

theorem finds_spelling {k : Kind} (hk : k.Spellable) (hrest : k.Ends rest) :
    (scan (k.spelling ++ rest)).Finds k rest := by
  cases k with
  | ident name => exact finds_ident hk hrest
  | int value => exact finds_int hk hrest
  | char value => simpa [Kind.spelling] using finds_char hk
  | str value => simpa [Kind.spelling] using finds_str hk
  | keyword word => exact finds_keyword word hrest
  | eq | ne | le | ge => exact ⟨rfl, rfl, rfl⟩
  | punct symbol => exact finds_punct hk hrest
  | eos => exact hk.elim

theorem Trivia.triviaLength_append {gap : List Char} (h : Trivia gap) :
    triviaLength false (gap ++ cs) = gap.length + triviaLength false cs := by
  have hopen : ∀ {body : List Char}, '\n' ∉ body → ∀ cs,
      triviaLength true (body ++ '\n' :: cs) = body.length + 1 + triviaLength false cs := by
    intro body hbody cs
    induction body with
    | nil => simp [triviaLength, Nat.add_comm]
    | cons c body ih =>
      obtain ⟨hc, hbody⟩ := ne_and_not_mem_of_not_mem_cons hbody
      rw [cons_append, triviaLength, if_neg hc.symm, ih hbody, length_cons]
      omega
  induction h with
  | nil => simp
  | @blank c gap hc _ ih =>
    rw [cons_append, triviaLength, if_pos (isBlank_iff.mpr hc), ih, length_cons]
    omega
  | @comment body gap hbody _ ih =>
    rw [cons_append, append_assoc, cons_append, triviaLength, if_neg (by decide), if_pos rfl,
      hopen hbody, ih]
    simp only [length_cons, length_append]
    omega

theorem Trivia.parted {gap : List Char} (h : Trivia gap) (hne : gap ≠ []) (rest : List Char) :
    Parted (gap ++ rest) := by
  cases h with
  | nil => exact absurd rfl hne
  | @blank c cs hc _ =>
    rintro _ ⟨⟩
    exact .inl (isBlank_iff.mpr hc)
  | comment =>
    rintro _ ⟨⟩
    exact .inr rfl

theorem Kind.Spellable.exists_cons {k : Kind} (hk : k.Spellable) : ∃ c cs, k.spelling = c :: cs ∧ ¬Parting c := by
  cases k with
  | ident name =>
    obtain ⟨⟨c, cs, hname, hc, -⟩, -⟩ := hk
    refine ⟨c, cs, hname, fun h => h.not_isNamePart ?_⟩
    simp [isNamePart, isNameStart_iff.mpr hc]
  | int value =>
    obtain ⟨d, ds, hds⟩ := exists_cons_of_ne_nil (Nat.toDigits_ne_nil (b := 10) (n := value))
    refine ⟨d, ds, hds, fun h => h.not_isDigit ?_⟩
    exact Nat.isDigit_of_mem_toDigits (b := 10) (n := value) (by decide) (by decide) (by simp [hds])
  | keyword word =>
    obtain ⟨c, cs, htext, hc, -⟩ := Keyword.exists_cons word
    exact ⟨c, cs, htext, fun h => h.not_isNamePart (by simp [isNamePart, hc])⟩
  | punct symbol =>
    refine ⟨symbol, [], rfl, ?_⟩
    rcases hk.mem_symbols with h | h
    · exact (show ∀ c ∈ symbols, ¬(isBlank c ∨ c = '#') by decide) symbol h
    · exact (show ∀ c ∈ relations, ¬(isBlank c ∨ c = '#') by decide) symbol h
  | char | str | eq | ne | le | ge => exact ⟨_, _, rfl, show ¬(isBlank _ ∨ _ = '#') by decide⟩
  | eos => exact hk.elim

theorem Kind.Spellable.triviaLength_append {k : Kind} (hk : k.Spellable) :
    triviaLength false (k.spelling ++ rest) = 0 := by
  obtain ⟨c, cs, hspelling, hc⟩ := hk.exists_cons
  obtain ⟨hblank, hhash⟩ := not_or.mp hc
  rw [hspelling, cons_append, triviaLength, if_neg hblank, if_neg hhash]

end

/-- The text spells tokens of these kinds, with trivia between them where one would go on in the next. -/
inductive Lexes : List Char → List Kind → Prop where
  | trivia {gap : List Char} (hgap : Trivia gap) : Lexes gap []
  | token {gap rest : List Char} {k : Kind} {ks : List Kind} (hgap : Trivia gap) (hk : k.Spellable)
      (hrest : k.Ends rest) (h : Lexes rest ks) : Lexes (gap ++ (k.spelling ++ rest)) (k :: ks)

/-- Tokens with the text before each of them, and the text after the last. -/
structure Script where
  tokens : List (List Char × Kind)
  trailing : List Char

namespace Script

def text (s : Script) : List Char := s.tokens.flatMap (fun x => x.1 ++ x.2.spelling) ++ s.trailing

def kinds (s : Script) : List Kind := s.tokens.map Prod.snd

/-- There is nothing but trivia between the tokens, and some between any two. -/
structure Separated (s : Script) : Prop where
  spellable : ∀ x ∈ s.tokens, x.2.Spellable
  trivia : ∀ x ∈ s.tokens, Trivia x.1
  apart : ∀ x ∈ s.tokens.tail, x.1 ≠ []
  trailing : Trivia s.trailing

variable {x : List Char × Kind} {tokens : List (List Char × Kind)} {trailing : List Char}

theorem Separated.of_cons (h : Separated ⟨x :: tokens, trailing⟩) : Separated ⟨tokens, trailing⟩ where
  spellable := (forall_mem_cons.mp h.spellable).2
  trivia := (forall_mem_cons.mp h.trivia).2
  apart y hy := h.apart y (mem_of_mem_tail hy)
  trailing := h.trailing

theorem Separated.parted (h : Separated ⟨x :: tokens, trailing⟩) : Parted (text ⟨tokens, trailing⟩) := by
  cases tokens with
  | nil =>
    by_cases hnil : trailing = []
    · simp [hnil, text, Parted]
    · simpa [text] using h.trailing.parted hnil []
  | cons y tokens =>
    have hgap := (h.trivia y (by simp)).parted (h.apart y (by simp)) (y.2.spelling ++ text ⟨tokens, trailing⟩)
    simpa [text] using hgap

theorem Separated.lexes {script : Script} (h : script.Separated) : Lexes script.text script.kinds := by
  obtain ⟨tokens, trailing⟩ := script
  induction tokens with
  | nil => exact .trivia h.trailing
  | cons x tokens ih =>
    have hx := h.spellable x (by simp)
    have hlexes := Lexes.token (h.trivia x (by simp)) hx (h.parted.ends hx) (ih h.of_cons)
    simpa [text, kinds] using hlexes

end Script
end Token

/-- A token of this kind, as the kind is spelled. -/
def Lexeme.Spells (l : Lexeme) (k : Token.Kind) : Prop :=
  ∃ t, l.outcome = .ok t ∧ t.kind = k ∧ t.text = String.ofList k.spelling

namespace Scanner

open Token

/-- The lexeme that comes after `n` others. -/
def lexeme (s : Scanner) (n : Nat) : Lexeme := ((fun s => s.next.2)^[n] s).next.1

/-- Nothing is held, and this is still to be read. -/
structure At (s : Scanner) (text : List Char) : Prop where
  held : s.held = none
  rest : s.rest = text

variable {s : Scanner} {gap body rest : List Char} {k : Kind}

theorem At.next (h : s.At (gap ++ body)) (hgap : Trivia gap) (hbody : triviaLength false body = 0)
    (hfinds : (scan body).Finds k rest) : s.next.1.Spells k ∧ s.next.2.At rest := by
  have hskip : s.rest.drop (triviaLength false s.rest) = body := by
    rw [h.rest, hgap.triviaLength_append, hbody, Nat.add_zero, drop_left]
  have hnext : s.next = s.advance := by rw [Scanner.next, h.held]
  simp only [hnext, advance, hskip, hfinds.outcome, hfinds.taken, hfinds.rest]
  exact ⟨⟨_, rfl, rfl, rfl⟩, h.held, rfl⟩

theorem At.next_trivia (h : s.At gap) (hgap : Trivia gap) : s.next.1.Spells .eos ∧ s.next.2.At [] := by
  rw [← gap.append_nil] at h
  exact h.next hgap rfl ⟨rfl, rfl, rfl⟩

theorem At.lexeme_trivia (h : s.At gap) (hgap : Trivia gap) (n : Nat) : (s.lexeme n).Spells .eos := by
  induction n generalizing s gap with
  | zero => exact (h.next_trivia hgap).1
  | succ n ih => exact ih (h.next_trivia hgap).2 .nil

theorem At.lexeme_lexes {text : List Char} {ks : List Kind} (h : s.At text) (hlexes : Lexes text ks) (n : Nat) :
    (s.lexeme n).Spells (ks.getD n .eos) := by
  induction hlexes generalizing s n with
  | trivia hgap => simpa using h.lexeme_trivia hgap n
  | token hgap hk hrest _ ih =>
    obtain ⟨hspells, hat⟩ := h.next hgap hk.triviaLength_append (finds_spelling hk hrest)
    cases n with
    | zero => exact hspells
    | succ n => exact ih hat n

theorem At.lexeme_script {script : Script} (h : s.At script.text) (hscript : script.Separated) (n : Nat) :
    (s.lexeme n).Spells (script.kinds.getD n .eos) := h.lexeme_lexes hscript.lexes n

/-- Reading inverts spelling: the tokens of a text that spells kinds with trivia between them are of
these kinds, in order, and then comes the end of the text for ever. -/
theorem reads_back_spelling (script : Script) (h : script.Separated) (n : Nat) :
    ((Scanner.ofString (String.ofList script.text)).lexeme n).Spells (script.kinds.getD n .eos) :=
  At.lexeme_script ⟨rfl, String.toList_ofList⟩ h n

/-- A name that begins with a reserved word, quotes in quotes, and a comment that contains both. -/
def quotedQuotes : Script where
  tokens := [([], .keyword .fun), (['\t', '#', '\'', '"', '\n', '\r'], .ident "fun_1"),
    ([' '], .int 9223372036854775807), (['\n'], .char '\''), ([' '], .str "\"\\"), ([' '], .punct '<'), ([' '], .le)]
  trailing := ['#', '#', '\n']

theorem quotedQuotes_read_back : quotedQuotes.Separated ∧
    quotedQuotes.text = "fun\t#\'\"\n\rfun_1 9223372036854775807\n'\\'' \"\\\"\\\\\" < <=##\n".toList ∧
      ((Scanner.ofString (String.ofList quotedQuotes.text)).lexeme 4).Spells (.str "\"\\") ∧
        ((Scanner.ofString (String.ofList quotedQuotes.text)).lexeme 100).Spells .eos := by
  have hseparated : quotedQuotes.Separated := by
    refine ⟨?_, ?_, by decide, @Trivia.comment ['#'] [] (by decide) .nil⟩
    · simp only [quotedQuotes, forall_mem_cons, Kind.Spellable, Printable]
      refine ⟨trivial, ⟨⟨'f', ['u', 'n', '_', '1'], rfl, by decide, by decide⟩, ?_⟩, by decide, by decide, by decide,
        by decide, trivial, by simp⟩
      intro word
      cases word <;> decide
    · have hspace : Trivia [' '] := .blank (by decide) .nil
      simp only [quotedQuotes, forall_mem_cons]
      exact ⟨.nil, .blank (by decide) (@Trivia.comment ['\'', '"'] ['\r'] (by decide)
        (.blank (by decide) .nil)), hspace, .blank (by decide) .nil, hspace, hspace, hspace, by simp⟩
  exact ⟨hseparated, by decide +kernel, reads_back_spelling quotedQuotes hseparated 4,
    reads_back_spelling quotedQuotes hseparated 100⟩

end Scanner
end MmixCompiler
