/-!
# Linkage.Text.Utf8

Texts as UTF-8 bytes and back.

* `ofBytes?_bytes` — reading the bytes of a text gives the text.
* `bytes_of_ofBytes?` — what reads as a text is exactly the bytes of that text.
-/

namespace Linkage
namespace Text

def bytes (s : String) : List UInt8 := s.toUTF8.data.toList

/-- The text these bytes encode, if they are valid UTF-8. -/
def ofBytes? (bs : List UInt8) : Option String := String.fromUTF8? ⟨bs.toArray⟩

/-- The number of bytes of a piece of text. -/
def byteLength (cs : List Char) : Nat := cs.foldr (fun c n => c.utf8Size + n) 0

theorem ofBytes?_bytes (s : String) : ofBytes? (bytes s) = some s := by
  have h : (⟨(bytes s).toArray⟩ : ByteArray) = s.toByteArray := rfl
  unfold ofBytes? String.fromUTF8?
  rw [h, dif_pos s.isValidUTF8]
  rfl

theorem bytes_of_ofBytes? {bs : List UInt8} {s : String} (h : ofBytes? bs = some s) :
    bytes s = bs := by
  unfold ofBytes? String.fromUTF8? at h
  split at h
  · cases h; rfl
  · cases h

end Text
end Linkage
