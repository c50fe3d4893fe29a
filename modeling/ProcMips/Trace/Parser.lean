import ProcMips.Parse.Program
import ProcMips.Trace.Selection

/-!
The trace of the parser: each grammar rule that it enters, with the token that comes next.
-/

namespace ProcMips

/-- The function that reads a rule, by the modules around it and its name. -/
def Rule.function (r : Rule) : List String :=
  let (part, name) := match r with
    | varDecl => ("parser", "var_decl")
    | arraySize => ("parser", "array_size")
    | procedureDef => ("parser", "procedure_def")
    | parameterList => ("parser", "parameter_list")
    | statement => ("statement", "statement")
    | idInstruction => ("statement", "id_instruction")
    | lvalueSuffix => ("statement", "lvalue_suffix")
    | ifInstruction => ("statement", "if_instruction")
    | whileInstruction => ("statement", "while_instruction")
    | outputInstruction => ("statement", "output_instruction")
    | inputInstruction => ("statement", "input_instruction")
    | block => ("statement", "block")
    | returnInstruction => ("statement", "return_instruction")
    | declaration => ("statement", "declaration")
    | expression => ("expression", "expression")
    | factor => ("expression", "factor")
    | identifierOrCall => ("expression", "identifier_or_call")
    | argumentList => ("expression", "argument_list")
  ["blaise_lang", "compiler", "parser", part, name]

/-- The line of a rule that is entered in front of a token, if the token is selected. -/
def Rule.traceLine? (nameOf : List String → String) (sel : Selection) (r : Rule) (t : Token) :
    Option String :=
  if sel.bounds.includes t.line then some (nameOf r.function ++ " <- " ++ t.text) else none

end ProcMips
