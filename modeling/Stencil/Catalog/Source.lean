import Stencil.Catalog.Shape
import Stencil.Toml.Document

/-!
# Catalogs as text

A catalog is written as a TOML document.
-/

namespace Stencil

/-- The catalog that a document holds, if the document is well formed and its shape is that of
one. -/
def Catalog.read (document : String) : Option Catalog := (Toml.read document).bind Catalog.ofDatum?

end Stencil
