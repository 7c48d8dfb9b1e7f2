/-!
# Lines of a byte stream

A stream of bytes is cut into lines before it is read as text, so that a line that is not text
spoils only itself.
-/

set_option autoImplicit false

namespace SurfaceTape.Text

/-- The lines of a stream, without the line feeds that end them. After the last line feed a line
begins only if a byte follows. -/
def lines (bytes : List UInt8) : List (List UInt8) :=
  let pieces := bytes.splitOn 10
  if pieces.getLast? = some [] then pieces.dropLast else pieces

def decode? (line : List UInt8) : Option (List Char) :=
  (String.fromUTF8? ⟨line.toArray⟩).map String.toList

end SurfaceTape.Text
