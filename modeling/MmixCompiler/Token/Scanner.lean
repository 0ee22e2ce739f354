import MmixCompiler.Token.Scan

/-! Reading tokens one after the other, with one token of lookahead. -/

namespace MmixCompiler

structure Lexeme where
  outcome : Except Token.Error Token
  stop : Position

/-- The state of reading a text. `atEnd` tells whether the last look at the text met its end; `held`
is a lexeme that was read ahead. -/
structure Scanner where
  rest : List Char
  position : Position
  atEnd : Bool
  held : Option Lexeme

namespace Scanner

def ofString (src : String) : Scanner :=
  ⟨src.toList, {}, src.toList.isEmpty, none⟩

/-- Skips trivia and reads one lexeme. After an error, reading goes on where it stopped. -/
def advance (s : Scanner) : Lexeme × Scanner :=
  let skipped := Token.triviaLength false s.rest
  let start := s.position.after (s.rest.take skipped)
  let r := Token.scan (s.rest.drop skipped)
  let stop := start.after r.taken
  let outcome := match r.outcome with
    | .ok kind => .ok ⟨kind, String.ofList r.taken, start, stop⟩
    | .error fault => .error ⟨stop, fault⟩
  (⟨outcome, stop⟩, { s with rest := r.rest, position := stop, atEnd := r.sawEnd })

def next (s : Scanner) : Lexeme × Scanner :=
  match s.held with
  | some lexeme => (lexeme, { s with held := none })
  | none => s.advance

def peek (s : Scanner) : Lexeme × Scanner :=
  match s.held with
  | some lexeme => (lexeme, s)
  | none =>
    let (lexeme, s) := s.advance
    (lexeme, { s with held := some lexeme })

end Scanner
end MmixCompiler
