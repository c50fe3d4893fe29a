import ProcMips.CommandLine.Options

/-!
Arguments of the command line, as uses of options. An option is followed by its value in the same
argument or in the next one, and the last option alone may lack its value until the whole list is
checked.
-/

namespace ProcMips

/-- Why the arguments are not carried out. -/
inductive UsageError where
  | unknownArgument
  | emptyValue
  | invalidValue
  | missingRequiredArgument
  | unexpectedMultipleUsage
  | helpDisplayed
  | versionDisplayed
deriving Repr, DecidableEq

/-- One use of an option. -/
structure Use where
  name : OptionName
  value : Option String
deriving Repr, DecidableEq

/-- What an argument is where no value is awaited. -/
inductive Argument where
  | use (u : Use)
  | endOfOptions
deriving Repr, DecidableEq

namespace Argument

/-- A value that is joined to its option, without the equals signs before it. -/
def joinedValue (cs : List Char) : String := String.ofList (cs.dropWhile (· = '='))

/-- An argument with two hyphens or more: a name, and perhaps an equals sign and a value. -/
def ofLong (cs : List Char) : Except UsageError Argument :=
  let (name, rest) := (cs.dropWhile (· = '-')).span (· ≠ '=')
  let value := if rest = [] then none else some (joinedValue rest)
  match OptionName.ofLong? name with
  | some o => .ok (.use ⟨o, value⟩)
  | none =>
    if name = "help".toList then .error .helpDisplayed
    else if name = "version".toList then .error .versionDisplayed
    else .error .unknownArgument

/-- An argument with one hyphen: a letter, and perhaps a value. -/
def ofShort (c : Char) (cs : List Char) : Except UsageError Argument :=
  let value := if cs = [] then none else some (joinedValue cs)
  match OptionName.ofShort? c with
  | some o => .ok (.use ⟨o, value⟩)
  | none =>
    if c = 'h' then .error .helpDisplayed
    else if c = 'V' then .error .versionDisplayed
    else .error .unknownArgument

def parse (arg : String) : Except UsageError Argument :=
  match arg.toList with
  | ['-', '-'] => .ok .endOfOptions
  | '-' :: '-' :: cs => ofLong cs
  | '-' :: c :: cs => ofShort c cs
  | _ => .error .unknownArgument

end Argument

/-- Whether an argument can be the value of the option before it. A hyphen alone can. -/
def isValue (arg : String) : Bool :=
  match arg.toList with
  | '-' :: _ :: _ => false
  | _ => true

/-- The uses of options in a list of arguments. Nothing may follow the end of the options. -/
def readUses : List String → Except UsageError (List Use)
  | [] => .ok []
  | arg :: args =>
    match Argument.parse arg with
    | .error e => .error e
    | .ok .endOfOptions => if args = [] then .ok [] else .error .unknownArgument
    | .ok (.use u) =>
      match args with
      | [] => .ok [u]
      | next :: rest =>
        if u.value = none ∧ isValue next then
          (⟨u.name, some next⟩ :: ·) <$> readUses rest
        else (u :: ·) <$> readUses (next :: rest)

/-- The values given to an option. -/
def valuesOf (uses : List Use) (o : OptionName) : List String :=
  (uses.filter (·.name == o)).filterMap Use.value

/-- What must hold of each option that is used. -/
def checkOption (uses : List Use) (o : OptionName) : Except UsageError Unit :=
  let count := (uses.filter (·.name == o)).length
  if count = 0 then .ok ()
  else if valuesOf uses o = [] then .error .emptyValue
  else if (valuesOf uses o).any (!o.allows ·) then .error .invalidValue
  else if 1 < count then .error .unexpectedMultipleUsage
  else .ok ()

/-- The input must be named, a last option must have a value, and then each option is checked. -/
def checkUses (uses : List Use) : Except UsageError Unit :=
  if uses.all (·.name != .input) then .error .missingRequiredArgument
  else
    match uses.getLast? with
    | some ⟨o, none⟩ => if valuesOf uses o = [] then .error .emptyValue else checkEach uses
    | _ => checkEach uses
where checkEach (uses : List Use) : Except UsageError Unit := OptionName.all.forM (checkOption uses)

namespace Matches

def ofUses (uses : List Use) : Matches := fun o => (valuesOf uses o).head?

/-- The values that a list of arguments gives to the options. -/
def ofArguments (args : List String) : Except UsageError Matches := do
  let uses ← readUses args
  checkUses uses
  return ofUses uses

end Matches

/-- The options that a list of arguments gives. -/
def Options.parse (args : List String) : Except UsageError Options := do
  (ofMatches (← Matches.ofArguments args)).mapError fun _ => .invalidValue

end ProcMips
