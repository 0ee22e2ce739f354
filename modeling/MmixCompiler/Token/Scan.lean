import MmixCompiler.Token.Basic
import MmixCompiler.Word

/-! Splitting the first token off a list of characters. Each scanner returns the characters it took
and those it left, so that nothing is lost between them; a text that is no token is taken up to the
character that spoils it. -/

namespace MmixCompiler.Token

/-- Characters between tokens, comments apart. -/
def isBlank (c : Char) : Bool := c = ' ' || c = '\t' || c = '\n' || c = '\r'

def isDigit (c : Char) : Bool := '0' ≤ c && c ≤ '9'

def isNameStart (c : Char) : Bool := ('a' ≤ c && c ≤ 'z') || ('A' ≤ c && c ≤ 'Z') || c = '_'

def isNamePart (c : Char) : Bool := isNameStart c || isDigit c

def isQuotable (c : Char) : Bool := ' ' ≤ c && c ≤ '~'

/-- Symbols that are tokens by themselves, whatever follows. -/
def symbols : List Char :=
  ['|', '^', '&', '+', '-', '*', '/', '%', '$', '@', '.', ',', ':', ';', '[', ']', '(', ')', '\x7b',
    '\x7d']

/-- Symbols that an equals sign extends. -/
def relations : List Char := ['!', '=', '<', '>']

/-- The number of leading characters that belong to no token: blanks, and comments from a number
sign to the end of the line. The flag says that a comment is open. -/
def triviaLength : Bool → List Char → Nat
  | _, [] => 0
  | true, c :: cs => if c = '\n' then triviaLength false cs + 1 else triviaLength true cs + 1
  | false, c :: cs =>
    if isBlank c then triviaLength false cs + 1
    else if c = '#' then triviaLength true cs + 1
    else 0

/-- One attempt at a token. `sawEnd` tells whether the end of the text was looked at. -/
structure Scan where
  outcome : Except Fault Kind
  taken : List Char
  rest : List Char
  sawEnd : Bool

/-- The digits that fit a word after `value`, and what is left. -/
def scanDigits (value : Nat) : List Char → Scan
  | [] => ⟨.ok (.int value), [], [], true⟩
  | c :: cs =>
    if isDigit c then
      let value := value * 10 + (c.toNat - '0'.toNat)
      if (value : Int) ≤ Word.greatest then
        let r := scanDigits value cs
        { r with taken := c :: r.taken }
      else ⟨.error .integerOverflow, [], c :: cs, false⟩
    else ⟨.ok (.int value), [], c :: cs, false⟩

def scanName (cs : List Char) : Scan :=
  let taken := cs.takeWhile isNamePart
  let rest := cs.dropWhile isNamePart
  let name := String.ofList taken
  let kind := match Keyword.ofText? name with
    | some word => .keyword word
    | none => .ident name
  ⟨.ok kind, taken, rest, rest.isEmpty⟩

/-- A relational symbol, with the equals sign after it if there is one. -/
def scanRelation (c : Char) : List Char → Scan
  | '=' :: cs =>
    let kind := if c = '=' then .eq else if c = '!' then .ne else if c = '<' then .le else .ge
    ⟨.ok kind, [c, '='], cs, false⟩
  | cs => ⟨.ok (.punct c), [c], cs, cs.isEmpty⟩

def scanClosing (taken : List Char) (c : Char) : List Char → Scan
  | '\'' :: cs => ⟨.ok (.char c), taken ++ ['\''], cs, false⟩
  | cs => ⟨.error .unclosedCharacter, taken, cs, cs.isEmpty⟩

/-- What follows the opening quote of a character literal. A backslash makes the next character
stand for itself. -/
def scanCharacter : List Char → Scan
  | [] => ⟨.error (.unterminated .character), ['\''], [], true⟩
  | '\\' :: [] => ⟨.error (.unterminated .character), ['\'', '\\'], [], true⟩
  | '\\' :: c :: cs =>
    if isQuotable c then scanClosing ['\'', '\\', c] c cs
    else ⟨.error (.illegalIn c .character), ['\'', '\\'], c :: cs, false⟩
  | '\'' :: cs => ⟨.error .emptyCharacter, ['\'', '\''], cs, false⟩
  | c :: cs =>
    if isQuotable c then scanClosing ['\'', c] c cs
    else ⟨.error (.illegalIn c .character), ['\''], c :: cs, false⟩

/-- What follows the opening quote of a string literal, after the characters `value`, latest
first. -/
def scanString (value : List Char) : List Char → Scan
  | [] => ⟨.error (.unterminated .string), [], [], true⟩
  | '"' :: cs => ⟨.ok (.str (String.ofList value.reverse)), ['"'], cs, false⟩
  | '\\' :: [] => ⟨.error (.unterminated .string), ['\\'], [], true⟩
  | '\\' :: c :: cs =>
    if isQuotable c then
      let r := scanString (c :: value) cs
      { r with taken := '\\' :: c :: r.taken }
    else ⟨.error (.illegalIn c .string), ['\\'], c :: cs, false⟩
  | c :: cs =>
    if isQuotable c then
      let r := scanString (c :: value) cs
      { r with taken := c :: r.taken }
    else ⟨.error (.illegalIn c .string), [], c :: cs, false⟩

/-- The first token of a text that does not begin with trivia. -/
def scan : List Char → Scan
  | [] => ⟨.ok .eos, [], [], true⟩
  | c :: cs =>
    if isDigit c then scanDigits 0 (c :: cs)
    else if isNameStart c then scanName (c :: cs)
    else if relations.contains c then scanRelation c cs
    else if c = '\'' then scanCharacter cs
    else if c = '"' then
      let r := scanString [] cs
      { r with taken := '"' :: r.taken }
    else if symbols.contains c then ⟨.ok (.punct c), [c], cs, false⟩
    else ⟨.error (.illegalCharacter c), [], c :: cs, false⟩

end MmixCompiler.Token
