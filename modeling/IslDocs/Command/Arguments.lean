import IslDocs.Command.Run

/-! The command line: a subcommand, its flags and its file, in any order. Arguments are taken from
left to right, and the first one that is wrong or asks for help or the version decides. -/

namespace IslDocs

inductive Subcommand where
  | build | check | info | order | resolve | validate | watch
  deriving DecidableEq

namespace Subcommand

def all : List Subcommand := [.build, .check, .info, .order, .resolve, .validate, .watch]

def name : Subcommand → Text
  | build => "build".toList
  | check => "check".toList
  | info => "info".toList
  | order => "order".toList
  | resolve => "resolve".toList
  | validate => "validate".toList
  | watch => "watch".toList

def named? (name : Text) : Option Subcommand := all.find? (·.name == name)

end Subcommand

inductive Flag where
  | json | strict | depth
  deriving DecidableEq

def Flag.name : Flag → Text
  | json => "json".toList
  | strict => "strict".toList
  | depth => "depth".toList

namespace Subcommand

def flags : Subcommand → List Flag
  | build | watch => []
  | check | info | order => [.json]
  | resolve => [.depth]
  | validate => [.json, .strict]

def takesFile : Subcommand → Bool
  | resolve | validate => true
  | _ => false

end Subcommand

/-- What a command line asks for. -/
inductive Request where
  | run (command : Command)
  | watch
  | version
  | help (subcommand : Option Subcommand)
  | helpOnHelp

inductive UsageError where
  | noSubcommand
  | unknownSubcommand (name : Text)
  | unexpectedArgument (argument : Text)
  | repeatedFlag (flag : Flag)
  | unexpectedValue (flag : Flag)
  | missingValue (flag : Flag)
  | notANumber (value : Text)
  | emptyFile
  | missingFile

namespace Arguments

/-- The greatest number of 64 bits. -/
def maxNatural : Nat := 18446744073709551615

/-- A whole number of at most 64 bits, a plus sign before it allowed. -/
def natural? (t : Text) : Option Nat :=
  let digits := match t with
    | '+' :: rest => rest
    | t => t
  if digits.isEmpty || !digits.all Char.isDigit then none
  else
    let n := digits.foldl (fun n c => 10 * n + (c.toNat - '0'.toNat)) 0
    if n ≤ maxNatural then some n else none

/-- The arguments of a subcommand as far as they have been taken. -/
structure Taken where
  json : Bool
  strict : Bool
  depth : Option Nat
  file : Option Path

def Taken.none : Taken := { json := false, strict := false, depth := .none, file := .none }

/-- What the arguments so far have led to. -/
inductive State where
  | open_ (taken : Taken)
  /-- The next argument is the depth. -/
  | depthNext (taken : Taken)
  /-- After a double dash every argument is a file. -/
  | filesOnly (taken : Taken)
  | settled (request : Request)

def has (taken : Taken) : Flag → Bool
  | .json => taken.json
  | .strict => taken.strict
  | .depth => taken.depth.isSome

def takeFile (s : Subcommand) (taken : Taken) (argument : Text) : Except UsageError Taken :=
  if !s.takesFile || taken.file.isSome then .error (.unexpectedArgument argument)
  else if argument.isEmpty then .error .emptyFile
  else .ok { taken with file := some ⟨argument⟩ }

def takeDepth (taken : Taken) (value : Text) : Except UsageError State :=
  match natural? value with
  | some n => .ok (.open_ { taken with depth := some n })
  | none => .error (.notANumber value)

def takeFlag (taken : Taken) (flag : Flag) (value : Option Text) : Except UsageError State :=
  if has taken flag then .error (.repeatedFlag flag)
  else match flag, value with
    | .json, none => .ok (.open_ { taken with json := true })
    | .strict, none => .ok (.open_ { taken with strict := true })
    | .depth, none => .ok (.depthNext taken)
    | .depth, some value => takeDepth taken value
    | flag, some _ => .error (.unexpectedValue flag)

/-- A name after a double dash, with the value that may follow an equals sign. -/
def splitFlag (t : Text) : Text × Option Text :=
  match Text.breakOn ['='] t with
  | some (name, value) => (name, some value)
  | none => (t, none)

def takeLong (s : Subcommand) (taken : Taken) (argument t : Text) : Except UsageError State :=
  let (name, value) := splitFlag t
  if name = "help".toList && value.isNone then .ok (.settled (.help (some s)))
  else match s.flags.find? (·.name == name) with
    | some flag => takeFlag taken flag value
    | none => .error (.unexpectedArgument argument)

def takeOpen (s : Subcommand) (taken : Taken) (argument : Text) : Except UsageError State :=
  match argument with
  | ['-', '-'] => .ok (.filesOnly taken)
  | '-' :: '-' :: t => takeLong s taken argument t
  | '-' :: 'h' :: _ => .ok (.settled (.help (some s)))
  | '-' :: _ :: _ => .error (.unexpectedArgument argument)
  | _ => (takeFile s taken argument).map .open_

/-- A depth may look like anything but a flag. -/
def takeAwaited (taken : Taken) (argument : Text) : Except UsageError State :=
  match argument with
  | '-' :: _ :: _ => .error (.missingValue .depth)
  | value => takeDepth taken value

def take (s : Subcommand) (state : State) (argument : Text) : Except UsageError State :=
  match state with
  | .open_ taken => takeOpen s taken argument
  | .depthNext taken => takeAwaited taken argument
  | .filesOnly taken => (takeFile s taken argument).map .filesOnly
  | .settled request => .ok (.settled request)

def command (s : Subcommand) (taken : Taken) : Except UsageError Request :=
  match s, taken.file with
  | .build, _ => .ok (.run .build)
  | .check, _ => .ok (.run (.check taken.json))
  | .info, _ => .ok (.run (.info taken.json))
  | .order, _ => .ok (.run (.order taken.json))
  | .resolve, some file => .ok (.run (.resolve file taken.depth))
  | .validate, some file => .ok (.run (.validate file taken.json taken.strict))
  | .watch, _ => .ok .watch
  | _, none => .error .missingFile

def finish (s : Subcommand) : State → Except UsageError Request
  | .open_ taken | .filesOnly taken => command s taken
  | .depthNext _ => .error (.missingValue .depth)
  | .settled request => .ok request

def parseSubcommand (s : Subcommand) (arguments : List Text) : Except UsageError Request := do
  finish s (← arguments.foldlM (take s) (.open_ .none))

/-- What `help` and the names after it ask for. -/
def parseHelp : List Text → Except UsageError Request
  | [] => .ok (.help none)
  | name :: rest =>
    if name = "help".toList then
      match rest with
      | [] => .ok .helpOnHelp
      | name :: _ => .error (.unknownSubcommand name)
    else match Subcommand.named? name, rest with
      | some s, [] => .ok (.help (some s))
      | some _, name :: _ => .error (.unknownSubcommand name)
      | none, _ => .error (.unknownSubcommand name)

def parse : List Text → Except UsageError Request
  | [] => .error .noSubcommand
  | argument :: rest =>
    match argument with
    | '-' :: 'h' :: _ => .ok (.help none)
    | '-' :: 'V' :: _ => .ok .version
    | '-' :: _ =>
      if argument = "--help".toList then .ok (.help none)
      else if argument = "--version".toList then .ok .version
      else .error (.unexpectedArgument argument)
    | name =>
      if name = "help".toList then parseHelp rest
      else match Subcommand.named? name with
        | some s => parseSubcommand s rest
        | none => .error (.unknownSubcommand name)

end Arguments
end IslDocs
