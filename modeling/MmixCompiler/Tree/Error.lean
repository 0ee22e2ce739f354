import MmixCompiler.Token.Basic

/-! Texts that are no program. -/

namespace MmixCompiler

/-- What the grammar asks for at some place. -/
inductive Expected where
  | declaration
  | type
  | expression
  | identifier
  | symbol (c : Char)
  | word (word : Keyword)
deriving DecidableEq

def Expected.text : Expected → String
  | .declaration => "declaration"
  | .type => "type"
  | .expression => "expression"
  | .identifier => "identifier"
  | .symbol c => "`" ++ String.singleton c ++ "`"
  | .word w => w.text

inductive ParseFault where
  /-- Some part of the text is no token. -/
  | lexical (fault : Token.Fault)
  /-- A token stands where the grammar asks for something else. -/
  | unexpected (expected : Expected) (found : Token.Kind)
deriving DecidableEq

def ParseFault.message : ParseFault → String
  | .lexical fault => "Lexical error: " ++ fault.message
  | .unexpected expected found =>
    "Syntax error: Expected " ++ expected.text ++ ", but found " ++ found.text

structure ParseError where
  position : Position
  fault : ParseFault
deriving DecidableEq

def ParseError.message (e : ParseError) : String := e.fault.message ++ " at " ++ e.position.text

end MmixCompiler
