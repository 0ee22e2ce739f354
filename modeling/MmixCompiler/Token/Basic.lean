import MmixCompiler.Position
import MmixCompiler.Text.Quoted

/-! Tokens and what can be wrong with the text of one. -/

namespace MmixCompiler

inductive Keyword where
  | none | true | false | null
  | arr | bool | char | del | do | else | end | fun | if | int | new | ptr | record | then | typ | var
  | void | where | while
deriving DecidableEq, Inhabited

namespace Keyword

def all : List Keyword :=
  [.none, .true, .false, .null, .arr, .bool, .char, .del, .do, .else, .end, .fun, .if, .int, .new,
    .ptr, .record, .then, .typ, .var, .void, .where, .while]

def text : Keyword → String
  | .none => "none"
  | .true => "true"
  | .false => "false"
  | .null => "null"
  | .arr => "arr"
  | .bool => "bool"
  | .char => "char"
  | .del => "del"
  | .do => "do"
  | .else => "else"
  | .end => "end"
  | .fun => "fun"
  | .if => "if"
  | .int => "int"
  | .new => "new"
  | .ptr => "ptr"
  | .record => "rec"
  | .then => "then"
  | .typ => "typ"
  | .var => "var"
  | .void => "void"
  | .where => "where"
  | .while => "while"

def ofText? (s : String) : Option Keyword := all.find? (fun k => k.text = s)

end Keyword

namespace Token

inductive Kind where
  | ident (name : String)
  | int (value : Nat)
  | char (value : Char)
  | str (value : String)
  | keyword (word : Keyword)
  | eq
  | ne
  | le
  | ge
  | punct (symbol : Char)
  | eos
deriving DecidableEq, Inhabited

def Kind.text : Kind → String
  | .ident name => "id<" ++ name ++ ">"
  | .int value => "int<" ++ toString value ++ ">"
  | .char value => "char<" ++ String.singleton value ++ ">"
  | .str value => "str<" ++ value ++ ">"
  | .keyword word => word.text
  | .eq => "=="
  | .ne => "!="
  | .le => "<="
  | .ge => ">="
  | .punct symbol => String.singleton symbol
  | .eos => "(EOF)"

inductive Quotation where
  | character
  | string
deriving DecidableEq

def Quotation.text : Quotation → String
  | .character => "character"
  | .string => "string"

inductive Fault where
  | illegalCharacter (c : Char)
  | illegalIn (c : Char) (form : Quotation)
  | emptyCharacter
  | unclosedCharacter
  | unterminated (form : Quotation)
  | integerOverflow
deriving DecidableEq

def Fault.message : Fault → String
  | .illegalCharacter c => "Unacceptable character " ++ Text.quote c
  | .illegalIn c form => "Illegal character " ++ Text.quote c ++ " in " ++ form.text ++ " literal"
  | .emptyCharacter => "Empty character literal"
  | .unclosedCharacter => "Expected `'` to close character literal"
  | .unterminated form => "Premature EOF while reading " ++ form.text ++ " literal"
  | .integerOverflow => "Integer literal is too large"

/-- A fault and the place where reading stopped. -/
structure Error where
  position : Position
  fault : Fault
deriving DecidableEq

def Error.message (e : Error) : String := e.fault.message ++ " at " ++ e.position.text

end Token

/-- A token with its spelling and the places where that begins and ends. -/
structure Token where
  kind : Token.Kind
  text : String
  start : Position
  stop : Position
deriving DecidableEq, Inhabited

def Token.length (t : Token) : Nat := t.text.utf8ByteSize

end MmixCompiler
