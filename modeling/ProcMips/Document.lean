import ProcMips.Text.Quoted

/-!
Documents of named fields, and three ways to write them: JSON on one line, JSON with one entry on a
line, and YAML.
-/

namespace ProcMips

inductive Document where
  | int (value : Int)
  | bool (value : Bool)
  | texts (items : List String)
  | fields (entries : List (String × Document))
deriving Repr

namespace Document

mutual

/-- JSON without any blanks. -/
def compactJson : Document → String
  | int n => toString n
  | bool b => toString b
  | texts items => "[" ++ ",".intercalate (items.map quotedString) ++ "]"
  | fields entries => "\x7b" ++ ",".intercalate (compactEntries entries) ++ "\x7d"

def compactEntries : List (String × Document) → List String
  | [] => []
  | (key, d) :: es => (quotedString key ++ ":" ++ d.compactJson) :: compactEntries es

end

def newline (depth : Nat) : String := String.ofList ('\n' :: List.replicate (2 * depth) ' ')

/-- Entries between brackets, one on a line, at the given depth. -/
def bracketed (depth : Nat) (left right : String) (entries : List String) : String :=
  if entries.isEmpty then left ++ right
  else
    left ++ newline (depth + 1) ++ ("," ++ newline (depth + 1)).intercalate entries ++
      newline depth ++ right

mutual

/-- JSON with each entry on a line of its own, two blanks deeper than what holds it. -/
def prettyJson (depth : Nat) : Document → String
  | int n => toString n
  | bool b => toString b
  | texts items => bracketed depth "[" "]" (items.map quotedString)
  | fields entries => bracketed depth "\x7b" "\x7d" (prettyEntries (depth + 1) entries)

def prettyEntries (depth : Nat) : List (String × Document) → List String
  | [] => []
  | (key, d) :: es => (quotedString key ++ ": " ++ d.prettyJson depth) :: prettyEntries depth es

end

/-- Identifiers that YAML reads as something other than a string. -/
def reservedWords : List String :=
  ["yes", "Yes", "YES", "no", "No", "NO", "True", "TRUE", "true", "False", "FALSE", "false", "on",
    "On", "ON", "off", "Off", "OFF", "null", "Null", "NULL"]

/-- Spellings of numbers, in lower case, that are identifiers. -/
def numberWords : List String := ["inf", "infinity", "nan"]

/-- An identifier as YAML writes it. -/
def yamlText (s : String) : String :=
  if s ∈ reservedWords ∨ s.toLower ∈ numberWords then quotedString s else s

mutual

/-- What follows a key that stands at the given depth. -/
def yamlAfterKey (depth : Nat) : Document → String
  | int n => s!" {n}"
  | bool b => s!" {b}"
  | texts [] => " []"
  | texts items => String.join (items.map fun s => newline (depth + 1) ++ "- " ++ yamlText s)
  | fields [] => " \x7b\x7d"
  | fields entries => yamlEntries (depth + 1) entries

def yamlEntries (depth : Nat) : List (String × Document) → String
  | [] => ""
  | (key, d) :: es =>
    newline depth ++ yamlText key ++ ":" ++ d.yamlAfterKey depth ++ yamlEntries depth es

end

/-- YAML with the entries of the whole document at the left margin. -/
def yaml (d : Document) : String :=
  let body := match d with
    | fields (e :: es) => yamlEntries 0 (e :: es)
    | d => d.yamlAfterKey 0
  "---" ++ body ++ "\n"

end Document

end ProcMips
