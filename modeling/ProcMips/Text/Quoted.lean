import ProcMips.Text.Printed

/-!
Quoted forms of characters and strings: a character literal, as a trace shows the next character,
and a string literal, as a table dump writes a key.
-/

namespace ProcMips

/-- A code point in hexadecimal, between braces. -/
def codePointEscape (c : Char) : String :=
  "\\u\x7b" ++ String.ofList (Nat.toDigits 16 c.toNat) ++ "\x7d"

/-- A character between single quotes. The single quote, the backslash and some control characters
have escapes of their own; any other character that is not printed as itself is written by its
number. -/
def quotedChar (c : Char) : String :=
  let body := match c with
    | '\n' => "\\n"
    | '\t' => "\\t"
    | '\r' => "\\r"
    | '\'' => "\\'"
    | '\\' => "\\\\"
    | '\x00' => "\\0"
    | c => if isPrinted c then c.toString else codePointEscape c
  "'" ++ body ++ "'"

/-- The next character of a text, or its absence. -/
def quotedNext : Option Char → String
  | none => "None"
  | some c => "Some(" ++ quotedChar c ++ ")"

/-- The escape of a control character that has no short form. -/
def hexEscape (c : Char) : List Char :=
  let digit (n : Nat) : Char := Nat.digitChar n
  ['\\', 'u', '0', '0', digit (c.toNat / 16), digit (c.toNat % 16)]

/-- One character inside a double-quoted string. -/
def escapeChar (c : Char) : List Char :=
  if c = '"' then ['\\', '"']
  else if c = '\\' then ['\\', '\\']
  else if c = '\x08' then ['\\', 'b']
  else if c = '\x0c' then ['\\', 'f']
  else if c = '\n' then ['\\', 'n']
  else if c = '\r' then ['\\', 'r']
  else if c = '\t' then ['\\', 't']
  else if c.toNat < 0x20 then hexEscape c
  else [c]

/-- A string between double quotes. -/
def quotedString (s : String) : String :=
  String.ofList ('"' :: s.toList.flatMap escapeChar ++ ['"'])

end ProcMips
