namespace LoxFront.Text

def bytes (text : String) : List UInt8 :=
  text.toList.flatMap String.utf8EncodeChar

def ofBytes? (bytes : List UInt8) : Option String :=
  String.fromUTF8? bytes.toByteArray

/-- The text that the bytes encode; bytes that encode none give the empty text. -/
def ofBytes (bytes : List UInt8) : String :=
  (ofBytes? bytes).getD ""

theorem toByteArray_bytes (text : String) : (bytes text).toByteArray = text.toByteArray := by
  have h : (bytes text).toByteArray = text.toList.utf8Encode := rfl
  rw [h, ← String.toByteArray_ofList, String.ofList_toList]

theorem ofBytes?_bytes (text : String) : ofBytes? (bytes text) = some text := by
  have hv : (bytes text).toByteArray.IsValidUTF8 := by
    rw [toByteArray_bytes]
    exact text.isValidUTF8
  rw [ofBytes?, String.fromUTF8?, dif_pos hv]
  exact congrArg some (String.toByteArray_inj.mp (toByteArray_bytes text))

theorem ofBytes_bytes (text : String) : ofBytes (bytes text) = text := by
  rw [ofBytes, ofBytes?_bytes, Option.getD_some]

theorem bytes_append (a b : String) : bytes (a ++ b) = bytes a ++ bytes b := by
  simp [bytes]

def size (text : String) : Nat :=
  (bytes text).length

end LoxFront.Text
