/-!
Texts as lists of lines.
-/

namespace ProcMips

/-- Lines of text, each ended by a newline. -/
def unlines (ls : List String) : String := String.join (ls.map (· ++ "\n"))

/-- A line that is being read backwards ends before a return. -/
def dropReturn : List Char → List Char
  | '\r' :: cs => cs
  | cs => cs

/-- The lines of a text, after the characters `read` of the first one, latest first. A return
before a newline belongs to the end of the line. -/
def linesAfter (read : List Char) : List Char → List String
  | [] => if read = [] then [] else [String.ofList read.reverse]
  | c :: cs =>
    if c = '\n' then String.ofList (dropReturn read).reverse :: linesAfter [] cs
    else linesAfter (c :: read) cs

/-- The lines of a text. -/
def textLines (text : String) : List String := linesAfter [] text.toList

end ProcMips
