/-! JSON values and their text over several lines. Fields keep their order. -/

namespace MmixCompiler

inductive Json where
  | null
  | int (n : Int)
  | str (s : String)
  | arr (items : List Json)
  | obj (fields : List (String × Json))

namespace Json

/-- A character inside a string: quotes, backslashes and control characters are escaped. -/
def escape (c : Char) : String :=
  if c = '"' then "\\\""
  else if c = '\\' then "\\\\"
  else if c = '\n' then "\\n"
  else if c = '\r' then "\\r"
  else if c = '\t' then "\\t"
  else if c = '\x08' then "\\b"
  else if c = '\x0c' then "\\f"
  else if c.toNat < 0x20 then
    "\\u00" ++ (if c.toNat < 0x10 then "0" else "") ++ String.ofList (Nat.toDigits 16 c.toNat)
  else c.toString

def quote (s : String) : String := "\"" ++ String.join (s.toList.map escape) ++ "\""

def newline (depth : Nat) : String := "\n" ++ String.ofList (List.replicate (2 * depth) ' ')

mutual

def pretty (depth : Nat) : Json → String
  | .null => "null"
  | .int n => toString n
  | .str s => quote s
  | .arr [] => "[]"
  | .arr (i :: is) =>
    "[" ++ ",".intercalate (prettyItems (depth + 1) (i :: is)) ++ newline depth ++ "]"
  | .obj [] => "\x7b\x7d"
  | .obj (f :: fs) =>
    "\x7b" ++ ",".intercalate (prettyFields (depth + 1) (f :: fs)) ++ newline depth ++ "\x7d"

def prettyItems (depth : Nat) : List Json → List String
  | [] => []
  | i :: is => (newline depth ++ i.pretty depth) :: prettyItems depth is

def prettyFields (depth : Nat) : List (String × Json) → List String
  | [] => []
  | (name, value) :: fs =>
    (newline depth ++ quote name ++ ": " ++ value.pretty depth) :: prettyFields depth fs

end

def text (j : Json) : String := j.pretty 0

end Json
end MmixCompiler
