import IslDocs.Json.Value
import IslDocs.Project.Freshness
import IslDocs.Validation.Report

/-! What commands print as JSON: validation reports, document statuses and build levels. -/

namespace IslDocs

def Diagnostic.toJson (d : Diagnostic) : Json.Value :=
  .ofMembers <|
    (d.line.map fun n => ("line".toList, Json.Value.ofNat n)).toList ++
    [("message".toList, .ofText d.message), ("rule".toList, .ofText d.rule.code),
     ("section".toList, .ofText d.place), ("severity".toList, .ofText d.severity.label)]

def Stats.toJson (s : Stats) : Json.Value :=
  .ofMembers
    [("capabilities".toList, .ofNat s.capabilities), ("components".toList, .ofNat s.components),
     ("constraints".toList, .ofNat s.constraints),
     ("domainConcepts".toList, .ofNat s.domainConcepts),
     ("testScenarios".toList, .ofNat s.testScenarios)]

def Report.toJson (r : Report) : Json.Value :=
  .ofMembers
    [("errors".toList, .array (r.errors.map Diagnostic.toJson)),
     ("info".toList, .array (r.info.map Diagnostic.toJson)),
     ("stats".toList, r.stats.toJson), ("valid".toList, .bool r.isValid),
     ("warnings".toList, .array (r.warnings.map Diagnostic.toJson))]

def DocumentStatus.toJson (s : DocumentStatus) : Json.Value :=
  .ofMembers
    [("sourcePath".toList, .ofText s.source), ("status".toList, .ofText s.status.label)]

def Json.Value.ofLevels (levels : List (List Text)) : Json.Value :=
  .array (levels.map fun level => .array (level.map .ofText))

end IslDocs
