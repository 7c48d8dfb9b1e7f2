/-!
# Columns

Right-aligned columns of listings.
-/

set_option autoImplicit false

namespace SurfaceTape.Text

def padLeft (width : Nat) (text : String) : String :=
  String.ofList (text.toList.leftpad width ' ')

def column (width n : Nat) : String := padLeft width (toString n)

end SurfaceTape.Text
