import AllSat.Text.Decimal

namespace AllSat.Command

inductive UsageError where
  | unexpected (arg : String)
  | missingValue (option : String)
  | repeated (arg : String)
  | invalidValue (value : String)
deriving DecidableEq

def UsageError.message : UsageError → String
  | unexpected arg =>
      "Found argument '" ++ arg ++ "' which wasn't expected, or isn't valid in this context"
  | missingValue option =>
      "The argument '" ++ option ++ "' requires a value but none was supplied"
  | repeated arg =>
      "The argument '" ++ arg ++ "' was provided more than once, but cannot be used multiple times"
  | invalidValue value => "Invalid value: The argument '" ++ value ++ "' isn't a valid value"

structure Job where
  input : Option String
  maxModels : Option Nat
  echo : Bool
deriving DecidableEq

inductive Request where
  | help
  | version
  | refuse (cause : UsageError)
  | perform (job : Job)
deriving DecidableEq

structure Arguments where
  input : Option String
  limitCount : Nat
  limits : List String
  echoCount : Nat
  awaiting : Bool
  onlyInputs : Bool

namespace Arguments

def none : Arguments := ⟨.none, 0, [], 0, false, false⟩

def positional (a : Arguments) (arg : String) : Except Request Arguments :=
  match a.input with
  | .none => .ok { a with input := some arg, awaiting := false }
  | some _ => .error (.refuse (.unexpected arg))

def long (a : Arguments) (body : List Char) : Except Request Arguments :=
  let name := String.ofList (body.takeWhile (· ≠ '='))
  let rest := body.dropWhile (· ≠ '=')
  if name = "help" then .error .help
  else if name = "version" then .error .version
  else if name = "dimacs" then .ok { a with echoCount := a.echoCount + 1, awaiting := false }
  else if name = "max-models" then
    let counted := { a with limitCount := a.limitCount + 1, awaiting := rest.isEmpty }
    if rest.isEmpty then .ok counted
    else .ok { counted with limits := a.limits ++ [String.ofList (rest.dropWhile (· = '='))] }
  else .error (.refuse (.unexpected ("--" ++ name)))

def short (letter : Char) : Request :=
  if letter = 'h' then .help
  else if letter = 'V' then .version
  else .refuse (.unexpected ("-" ++ letter.toString))

def step (a : Arguments) (arg : String) : Except Request Arguments :=
  if a.onlyInputs then a.positional arg
  else
    match arg.toList with
    | ['-', '-'] => .ok { a with onlyInputs := true }
    | '-' :: '-' :: body => a.long (body.dropWhile (· = '-'))
    | '-' :: letter :: _ => .error (short letter)
    | _ =>
      if a.awaiting then .ok { a with limits := a.limits ++ [arg], awaiting := false }
      else a.positional arg

def limitOption : String := "--max-models <N>"

def echoFlag : String := "--dimacs"

def request (a : Arguments) : Request :=
  if 0 < a.limitCount ∧ a.limits = [] then .refuse (.missingValue limitOption)
  else if 1 < a.limitCount then .refuse (.repeated limitOption)
  else if 1 < a.echoCount then .refuse (.repeated echoFlag)
  else
    match a.limits with
    | [] => .perform ⟨a.input, .none, a.echoCount = 1⟩
    | value :: _ =>
      match Text.unsigned? value with
      | .none => .refuse (.invalidValue value)
      | some n => .perform ⟨a.input, some n, a.echoCount = 1⟩

end Arguments

/-- Help, version and an argument out of place are acted on when they are met, counts and values
after all arguments have been read. -/
def Request.ofArgs (args : List String) : Request :=
  match args.foldlM Arguments.step Arguments.none with
  | .error request => request
  | .ok a => a.request

end AllSat.Command
