import MmixCompiler.Token.Scanner

/-! All lexemes of a text. Once reading makes no progress it gives the same lexeme for ever, the end
of the text or a character that begins no token, so finitely many lexemes and a last one say
everything. -/

namespace MmixCompiler

/-- The lexemes to come: `ahead` in order, then `last` for ever. -/
structure Stream where
  ahead : List Lexeme
  last : Lexeme

namespace Stream

def ofScanner (s : Scanner) : Stream :=
  let r := s.advance
  if r.2.rest.length < s.rest.length then
    let t := ofScanner r.2
    { t with ahead := r.1 :: t.ahead }
  else ⟨[], r.1⟩
termination_by s.rest.length

def ofString (src : String) : Stream := ofScanner (.ofString src)

def head (s : Stream) : Lexeme := s.ahead.headD s.last

def tail (s : Stream) : Stream := { s with ahead := s.ahead.tail }

/-- How many lexemes come before the last one. -/
def length (s : Stream) : Nat := s.ahead.length

end Stream

/-- The tokens of a text up to its end, or those before the first error and that error. -/
def Token.all (src : String) : List Token × Option Token.Error :=
  go (Stream.ofString src).ahead (Stream.ofString src).last
where
  go : List Lexeme → Lexeme → List Token × Option Token.Error
    | [], last =>
      match last.outcome with
      | .ok t => ([t], none)
      | .error e => ([], some e)
    | lexeme :: rest, last =>
      match lexeme.outcome with
      | .error e => ([], some e)
      | .ok t =>
        if t.kind = .eos then ([t], none)
        else
          let r := go rest last
          (t :: r.1, r.2)

end MmixCompiler
