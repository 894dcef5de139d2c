import CodeClones.Order.Lexical

/-!
# Text/Bytes — texts as byte sequences

Texts are hashed, measured and ordered by their UTF-8 bytes.  `Text.bytes` is that view, and
`Text.le` the order it induces.
-/

namespace CodeClones.Text

/-- The UTF-8 bytes of a text. -/
def bytes (text : String) : List UInt8 :=
  text.toUTF8.data.toList

/-- **The byte order** — lexicographic on the UTF-8 bytes. -/
def le (a b : String) : Bool :=
  !Order.lexLess (fun x y : UInt8 => decide (x < y)) (bytes b) (bytes a)

end CodeClones.Text
