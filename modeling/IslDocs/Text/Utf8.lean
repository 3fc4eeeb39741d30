import IslDocs.Text.Basic

/-! UTF-8: every text has an encoding, and of the byte strings exactly the encodings decode. -/

namespace IslDocs.Text

def bytes (t : Text) : ByteArray := (String.ofList t).toUTF8

/-- The text that a byte string encodes, if it is well-formed UTF-8. -/
def ofBytes? (b : ByteArray) : Option Text := (String.fromUTF8? b).map String.toList

@[simp] theorem ofBytes?_bytes (t : Text) : ofBytes? (bytes t) = some t := by
  have valid : (bytes t).IsValidUTF8 := (String.ofList t).isValidUTF8
  simp only [ofBytes?, String.fromUTF8?, dif_pos valid, Option.map_some]
  exact congrArg some (String.toList_ofList)

end IslDocs.Text
