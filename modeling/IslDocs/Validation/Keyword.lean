import IslDocs.Text.Word

/-! The keywords that make a constraint normative. They count as upper-case words only. -/

namespace IslDocs.Keyword

def all : List Text :=
  ["MUST".toList, "MUST NOT".toList, "REQUIRED".toList, "SHALL".toList, "SHALL NOT".toList,
   "SHOULD".toList, "SHOULD NOT".toList, "RECOMMENDED".toList, "MAY".toList, "OPTIONAL".toList]

/-- Those that are a single word. -/
def single : List Text :=
  ["MUST".toList, "REQUIRED".toList, "SHALL".toList, "SHOULD".toList, "RECOMMENDED".toList,
   "MAY".toList, "OPTIONAL".toList]

def occursIn (t : Text) : Bool := all.any (Text.containsWord t)

end IslDocs.Keyword
