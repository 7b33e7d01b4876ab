import Linkage.Symbols
import Linkage.Interface.Decode

/-!
# Linkage.Handle

Modules that are loaded, and finding them by name.
-/

namespace Linkage

/-- A loaded module. The number is its identity: no two modules that are loaded share one. -/
structure Handle where
  id : Nat
  interface : Interface
  symbols : Option Symbols
  /-- The image file behind the module, if it has one. -/
  location : Option String
  /-- Whether the module came from an image in memory and not with the host. -/
  dynamic : Bool
  deriving DecidableEq, Inhabited

namespace Handle

def name (h : Handle) : String := h.interface.name

def sameModule (h k : Handle) : Bool := h.id == k.id

end Handle

/-- Loaded modules by the names they are found under; the first of a name is found. -/
structure Resolver where
  entries : List (String × Handle)

namespace Resolver

def get? (r : Resolver) (name : String) : Option Handle :=
  (r.entries.find? (·.1 == name)).map Prod.snd

/-- Modules found under their own names. -/
def ofHandles (hs : List Handle) : Resolver := ⟨hs.map fun h => (h.name, h)⟩

end Resolver

end Linkage
