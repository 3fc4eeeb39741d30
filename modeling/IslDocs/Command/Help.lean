import IslDocs.Command.Arguments

/-! The help texts of the command line: what a subcommand does, how it is used, and its arguments
and options in two columns. -/

namespace IslDocs

def Subcommand.about : Subcommand → Text
  | build => "Build every document in dependency order and write the manifest".toList
  | check => "Compare documents against the last build's manifest".toList
  | info => "Show syntax, rules, workflow, and current project state".toList
  | order => "Show the build order grouped into independent levels".toList
  | resolve => "Print a document with its references recursively inlined".toList
  | validate => "Validate one document".toList
  | watch => "Build, then rebuild whenever a document changes".toList

def Flag.about : Flag → Text
  | json => "Output as JSON".toList
  | strict => "Treat warnings as errors".toList
  | depth => "Recursion bound (defaults to `max_depth` from .islc.toml)".toList

def Flag.usage : Flag → Text
  | depth => "    --depth <DEPTH>".toList
  | flag => "    --".toList ++ flag.name

namespace Help

/-- A row of a table: what is explained, and the explanation. -/
abbrev Row := Text × Text

def rowText (width : Nat) (row : Row) : Text :=
  "  ".toList ++ row.1.rightpad width ' ' ++ "  ".toList ++ row.2 ++ ['\n']

def table (title : String) (rows : List Row) : Text :=
  let width := ((rows.map fun row => row.1.length).max?).getD 0
  title.toList ++ ":\n".toList ++ rows.flatMap (rowText width)

def helpRow : Row := ("-h, --help".toList, "Print help".toList)

def versionRow : Row := ("-V, --version".toList, "Print version".toList)

def helpAbout : Text := "Print this message or the help of the given subcommand(s)".toList

def toolAbout : Text :=
  "Validate ISL documents and build their interface and build-context artifacts".toList

/-- What comes before the tables. -/
def opening (about usage : Text) : Text :=
  about ++ "\n\nUsage: islc ".toList ++ usage ++ "\n\n".toList

def tool : Text :=
  opening toolAbout "<COMMAND>".toList ++
    table "Commands"
      ((Subcommand.all.map fun s => (s.name, s.about)) ++ [("help".toList, helpAbout)]) ++
    ['\n'] ++ table "Options" [helpRow, versionRow]

def usage (s : Subcommand) : Text :=
  s.name ++ (if s.flags.isEmpty then [] else " [OPTIONS]".toList) ++
    (if s.takesFile then " <FILE>".toList else [])

def fileAbout : Subcommand → Text
  | .resolve => "Document to resolve".toList
  | _ => "Document to validate".toList

def subcommand (s : Subcommand) : Text :=
  opening s.about (usage s) ++
    (if s.takesFile then table "Arguments" [("<FILE>".toList, fileAbout s)] ++ ['\n'] else []) ++
    table "Options" ((s.flags.map fun flag => (flag.usage, flag.about)) ++ [helpRow])

def help : Text :=
  opening helpAbout "help [COMMAND]...".toList ++
    table "Arguments" [("[COMMAND]...".toList, "Print help for the subcommand(s)".toList)]

def version : Text := "islc ".toList ++ Info.version ++ ['\n']

end Help

namespace UsageError

def quoted (t : Text) : Text := '\'' :: t ++ ['\'']

def message : UsageError → Text
  | noSubcommand => "a subcommand is required".toList
  | unknownSubcommand name => "unrecognized subcommand ".toList ++ quoted name
  | unexpectedArgument argument => "unexpected argument ".toList ++ quoted argument
  | repeatedFlag flag => "--".toList ++ flag.name ++ " is given more than once".toList
  | unexpectedValue flag => "--".toList ++ flag.name ++ " takes no value".toList
  | missingValue flag => "--".toList ++ flag.name ++ " needs a value".toList
  | notANumber value => quoted value ++ " is not a whole number".toList
  | emptyFile => "the file name is empty".toList
  | missingFile => "a file is required".toList

/-- A usage error has exit code two and prints nothing but its message. -/
def outcome (e : UsageError) : Outcome where
  code := 2
  output := []
  errors := "error: ".toList ++ e.message ++ "\n\nFor more information, try '--help'.\n".toList

end UsageError

namespace Request

def printing (output : Text) : Outcome := { code := 0, output, errors := [] }

/-- What a request other than to watch does in a tree. -/
def perform (t : Tree) : Request → Option (Tree × Outcome)
  | .run c => let (t, result) := c.run t; some (t, Outcome.of result)
  | watch => none
  | version => some (t, printing Help.version)
  | help none => some (t, printing Help.tool)
  | help (some s) => some (t, printing (Help.subcommand s))
  | helpOnHelp => some (t, printing Help.help)

end Request
end IslDocs
