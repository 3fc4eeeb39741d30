import IslDocs.Text.Basic

/-! Why a file or a directory could not be read, written or made, in the words of the operating
system. -/

namespace IslDocs

inductive Fault where
  | notFound | notDirectory | isDirectory | alreadyExists | nameTooLong | nulCharacter | invalidUtf8
  | other (reason : Text)
  deriving DecidableEq

def Fault.message : Fault → Text
  | .notFound => "No such file or directory (os error 2)".toList
  | .notDirectory => "Not a directory (os error 20)".toList
  | .isDirectory => "Is a directory (os error 21)".toList
  | .alreadyExists => "File exists (os error 17)".toList
  | .nameTooLong => "File name too long (os error 36)".toList
  | .nulCharacter => "file name contained an unexpected NUL byte".toList
  | .invalidUtf8 => "stream did not contain valid UTF-8".toList
  | .other reason => reason

end IslDocs
