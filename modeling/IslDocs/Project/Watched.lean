import IslDocs.Config.Load

/-! What a project is built from: its documents and its configuration, wherever they are outside the
output directory. A change there calls for another build. -/

namespace IslDocs.Project

/-- Where artifacts go, as a location. -/
def outputLocation (t : Tree) (config : Config) : Location :=
  (t.workPath.join config.output).location

def isWatched (output : Location) (suffix : Text) (loc : Location) : Bool :=
  let name := loc.getLast?.getD []
  !output.isPrefixOf loc && (Text.endsWith suffix name || name == Config.fileName)

/-- The watched files below the working directory with what they hold. -/
def watched (t : Tree) (config : Config) : List (Location × Option Node) :=
  ((t.filesBelow t.workDir).filter (isWatched (outputLocation t config) config.suffix)).map
    fun loc => (loc, t.node? loc)

end IslDocs.Project
