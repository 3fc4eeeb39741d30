import IslDocs.Command.Help
import IslDocs.Command.Reach
import IslDocs.Project.Watched

/-! The command line program. It takes the working directory into a tree, lets the command act on
the tree, and puts the changes back on disk. -/

namespace IslDocs.Program

/-! ### From disk -/

/-- What a directory holds at a location and below. Links and unreadable files are left out. -/
partial def gather (above : Location) (entry : IO.FS.DirEntry) : IO (List (Location × Node)) := do
  let loc := above ++ [entry.fileName.toList]
  try
    match (← entry.path.symlinkMetadata).type with
    | .file => return [(loc, .file (← IO.FS.readBinFile entry.path))]
    | .dir =>
      let below ← (← entry.path.readDir).toList.mapM (gather loc)
      return (loc, .directory) :: below.flatten
    | _ => return []
  catch _ => return []

def ancestorsOf (loc : Location) : List Location :=
  (List.range loc.length).map fun n => loc.take (n + 1)

def workingTree : IO Tree := do
  let directory ← IO.currentDir
  let workDir := Path.location ⟨directory.toString.toList⟩
  let below ← (← directory.readDir).toList.mapM (gather workDir)
  return { entries := (ancestorsOf workDir).map (·, .directory) ++ below.flatten, workDir }

/-- Adds to the tree what is on disk at a location. -/
def addFromDisk (t : Tree) (loc : Location) : IO Tree := do
  if (t.node? loc).isSome then return t
  try
    let file := (← IO.currentDir) / String.ofList (Path.ofLocation loc).text
    match (← file.metadata).type with
    | .file => return t.put loc (.file (← IO.FS.readBinFile file))
    | .dir => return t.put loc .directory
    | _ => return t
  catch _ => return t

def addPath (t : Tree) (p : Path) : IO Tree :=
  (ancestorsOf (Path.absolute t.workPath p).location).foldlM addFromDisk t

/-- Adds what the command looks at, and what it looks at then, until that is all there. -/
partial def addReach (c : Command) (t : Tree) : IO Tree := do
  let more ← (c.reach t).foldlM addPath t
  if more.entries.length = t.entries.length then return more else addReach c more

/-! ### To disk -/

def onDisk (loc : Location) : String := String.ofList (Path.ofLocation loc).text

def putOnDisk (before : Tree) (entry : Location × Node) : IO Unit := do
  if before.node? entry.1 != some entry.2 then
    match entry.2 with
    | .directory => IO.FS.createDirAll (onDisk entry.1)
    | .file content => IO.FS.writeBinFile (onDisk entry.1) content

def applyChanges (before after : Tree) : IO Unit := do
  for entry in before.entries do
    if (after.node? entry.1).isNone then IO.FS.removeFile (onDisk entry.1)
  for entry in after.entries do putOnDisk before entry

/-! ### Running -/

def report (o : Outcome) : IO UInt32 := do
  let stdout ← IO.getStdout
  stdout.putStr (String.ofList o.output)
  stdout.flush
  (← IO.getStderr).putStr (String.ofList o.errors)
  return o.code.toUInt32

def runCommand (c : Command) : IO UInt32 := do
  let before ← addReach c (← workingTree)
  let (after, result) := c.run before
  applyChanges before after
  report (Outcome.of result)

/-- Milliseconds between two looks at the project. -/
def pause : UInt32 := 300

/-- Builds again whenever what is watched has changed. -/
partial def watchFrom (config : Config) (seen : List (Location × Option Node)) : IO UInt32 := do
  IO.sleep pause
  let now := Project.watched (← workingTree) config
  if now != seen then
    let _ ← runCommand .build
  watchFrom config now

def watch : IO UInt32 := do
  let t ← workingTree
  match Config.load t Command.here with
  | .error failure => report (Outcome.of (.error failure))
  | .ok config =>
    let _ ← runCommand .build
    watchFrom config (Project.watched t config)

def perform (request : Request) : IO UInt32 := do
  match request with
  | .run c => runCommand c
  | .watch => watch
  | request =>
    match request.perform { entries := [], workDir := [] } with
    | some (_, o) => report o
    | none => watch

end IslDocs.Program

def main (arguments : List String) : IO UInt32 :=
  match IslDocs.Arguments.parse (arguments.map String.toList) with
  | .error e => IslDocs.Program.report e.outcome
  | .ok request => IslDocs.Program.perform request
