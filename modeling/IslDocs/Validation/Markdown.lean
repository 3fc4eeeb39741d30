import IslDocs.Validation.Report

/-! A report as markdown: the counts, the diagnostics in groups that are left out when empty, and
the verdict. -/

namespace IslDocs.Report

def countLine (label : String) (n : Nat) : Text :=
  "- ".toList ++ label.toList ++ ": ".toList ++ Text.ofNat n ++ ['\n']

def statsText (s : Stats) : Text :=
  countLine "Components" s.components ++ countLine "Capabilities" s.capabilities ++
    countLine "Domain concepts" s.domainConcepts ++ countLine "Constraints" s.constraints ++
    countLine "Test scenarios" s.testScenarios

def lineSuffix : Option Nat → Text
  | none => []
  | some n => " (line ".toList ++ Text.ofNat n ++ ")".toList

def diagnosticLine (d : Diagnostic) : Text :=
  "- `".toList ++ d.rule.code ++ "` **".toList ++ d.place ++ "**".toList ++ lineSuffix d.line ++
    ": ".toList ++ d.message ++ ['\n']

def group (heading : String) : List Diagnostic → Text
  | [] => []
  | ds =>
    "\n## ".toList ++ heading.toList ++ " (".toList ++ Text.ofNat ds.length ++ ")\n\n".toList ++
      ds.flatMap diagnosticLine

def verdict (r : Report) : Text :=
  "\n**".toList ++ (if r.isValid then "PASSED" else "FAILED").toList ++ "**: ".toList ++
    Text.ofNat r.errors.length ++ " errors, ".toList ++ Text.ofNat r.warnings.length ++
    " warnings\n".toList

/-- The report on the document called `name`. -/
def markdown (name : Text) (r : Report) : Text :=
  "# Validation: `".toList ++ name ++ "`\n\n".toList ++ statsText r.stats ++
    group "Errors" r.errors ++ group "Warnings" r.warnings ++ group "Info" r.info ++ verdict r

end IslDocs.Report
