/-!
# Arguments

A level of the command line has options, at most one operand and the names of commands below it.
`Level.read` takes arguments one by one, up to a command. An option's value follows it or is
attached to it; single letters may stand together behind one dash; behind a lone `--` everything is
an operand.
-/

namespace Markers.CommandLine

/-- How often an option may be given, and whether it has a value. -/
inductive Arity where
  /-- Without a value, once. -/
  | flag
  /-- Without a value, any number of times. -/
  | tally
  /-- With a value, once. -/
  | single
  /-- With a value, any number of times. -/
  | many
  /-- Asks for the help text at once. -/
  | help
  /-- Asks for the version at once. -/
  | version
deriving DecidableEq, Repr

/-- An option, or the operand, of the command line. -/
structure Parameter where
  name : String
  letter : Option Char
  arity : Arity
  /-- The environment variable that stands in for a missing value. -/
  fallback : Option String
  /-- The values it may have; any when empty. -/
  choices : List String
deriving DecidableEq, Repr

/-- A command with what may follow it. -/
structure Level where
  options : List Parameter
  operand : Option Parameter
  commands : List String
deriving Repr

/-- Why arguments do not lead to a command. -/
inductive Stop where
  | usage
  | help
  | version
deriving DecidableEq, Repr

namespace Parameter

/-- Whether values follow the option. -/
def takesValue (parameter : Parameter) : Bool :=
  parameter.arity == .single || parameter.arity == .many

/-- Whether the option may be given again. -/
def repeats (parameter : Parameter) : Bool :=
  parameter.arity == .many || parameter.arity == .tally

end Parameter

/-- The values given on a level, in order. -/
structure Values where
  given : List (String × String)
deriving Repr

namespace Values

/-- Whether a parameter was given. -/
def has (values : Values) (name : String) : Bool :=
  values.given.any (·.1 == name)

/-- All values of a parameter. -/
def all (values : Values) (name : String) : List String :=
  (values.given.filter (·.1 == name)).map (·.2)

/-- The value of a parameter. -/
def get? (values : Values) (name : String) : Option String :=
  (values.all name).head?

/-- One more value for a parameter, if it may have it. -/
def add (values : Values) (parameter : Parameter) (value : String) : Except Stop Values :=
  if values.has parameter.name && !parameter.repeats then .error .usage
  else if !parameter.choices.isEmpty && !parameter.choices.contains value then .error .usage
  else .ok ⟨values.given ++ [(parameter.name, value)]⟩

end Values

/-- What has been read of a level. -/
structure Progress where
  values : Values
  /-- The option whose value comes next. -/
  pending : Option Parameter
  /-- Whether only operands follow. -/
  onlyOperands : Bool
deriving Repr

/-- Whether an argument looks like an option. -/
def isDashed (arg : String) : Bool :=
  arg.startsWith '-' && arg ≠ "-"

namespace Level

/-- Add a value for a parameter. -/
def give (progress : Progress) (parameter : Parameter) (value : List Char) :
    Except Stop Progress := do
  return { progress with
    values := ← progress.values.add parameter (String.ofList value), pending := none }

/-- Read the operand. -/
def takeOperand (level : Level) (progress : Progress) (arg : String) : Except Stop Progress :=
  match level.operand with
  | some operand => give progress operand arg.toList
  | none => .error .usage

/-- Read an option without a value. -/
def takeFlag (progress : Progress) (option : Parameter) : Except Stop Progress :=
  match option.arity with
  | .help => .error .help
  | .version => .error .version
  | _ => give progress option []

/-- Read a long option, whose dashes have been read. -/
def takeLong (level : Level) (progress : Progress) (s : List Char) : Except Stop Progress :=
  let name := String.ofList (s.takeWhile (· ≠ '='))
  match level.options.find? (·.name == name), s.dropWhile (· ≠ '=') with
  | none, _ => .error .usage
  | some option, [] =>
    if option.takesValue then .ok { progress with pending := some option }
    else takeFlag progress option
  | some option, _ :: value =>
    if option.takesValue then give progress option value else .error .usage

/-- Read letters behind a dash. What follows a letter that takes a value is that value, with or
without a sign of equality before it. -/
def takeLetters (level : Level) (progress : Progress) : List Char → Except Stop Progress
  | [] => .ok progress
  | c :: s =>
    match level.options.find? (·.letter == some c) with
    | none => .error .usage
    | some option =>
      if option.takesValue then
        match s with
        | [] => .ok { progress with pending := some option }
        | '=' :: value => give progress option value
        | value => give progress option value
      else (takeFlag progress option).bind fun progress => level.takeLetters progress s

/-- Read an argument that is neither a value nor a command. -/
def take (level : Level) (progress : Progress) (arg : String) : Except Stop Progress :=
  match arg.toList with
  | '-' :: '-' :: s => level.takeLong progress s
  | '-' :: c :: s => level.takeLetters progress (c :: s)
  | _ => level.takeOperand progress arg

/-- Read arguments up to a command, which is the answer together with what follows it. -/
def readFrom (level : Level) (progress : Progress) :
    List String → Except Stop (Values × Option (String × List String))
  | [] => if progress.pending.isSome then .error .usage else .ok (progress.values, none)
  | arg :: args =>
    match progress.pending with
    | some option =>
      if isDashed arg then .error .usage
      else (give progress option arg.toList).bind fun progress => level.readFrom progress args
    | none =>
      if progress.onlyOperands then
        (level.takeOperand progress arg).bind fun progress => level.readFrom progress args
      else if arg = "--" then level.readFrom { progress with onlyOperands := true } args
      else if level.commands.contains arg then .ok (progress.values, some (arg, args))
      else (level.take progress arg).bind fun progress => level.readFrom progress args

/-- Read the arguments of a level. -/
def read (level : Level) (args : List String) :
    Except Stop (Values × Option (String × List String)) :=
  level.readFrom ⟨⟨[]⟩, none, false⟩ args

end Level
end Markers.CommandLine
