import Linkage.Handle
import Linkage.Host.Files

/-!
# Linkage.Host.Registry

Which module a name stands for. An entry has the loaded module, for use at run time, and a
reference, for use by compiles, unless there is no image of the module to refer to.

Registering a compiled module replaces what the name stood for; enrolling a module of the host
does not. No entry is ever removed.
-/

namespace Linkage

inductive RegistryError where
  | reference (module : String) (error : ReferenceError)
  | nameMismatch (module found : String)
  deriving DecidableEq

namespace RegistryError

def message : RegistryError → String
  | .reference m _ => "cannot reference module '" ++ m ++ "'"
  | .nameMismatch m found =>
    "backing file of module '" ++ m ++ "' describes module '" ++ found ++ "'"

def causes : RegistryError → List String
  | .reference _ e => e.message :: e.causes
  | .nameMismatch _ _ => []

end RegistryError

namespace Registry

structure Entry where
  reference : Option Reference
  handle : Handle
  deriving DecidableEq

end Registry

structure Registry where
  entries : Store Registry.Entry

namespace Registry

def empty : Registry := ⟨.empty⟩

/-! ## Look-up -/

def entry? (r : Registry) (name : String) : Option Entry := r.entries.get? name

def resolve? (r : Registry) (name : String) : Option Handle := (r.entry? name).map (·.handle)

def reference? (r : Registry) (name : String) : Option Reference :=
  (r.entry? name).bind (·.reference)

def contains (r : Registry) (name : String) : Bool := r.entries.contains name

def size (r : Registry) : Nat := r.entries.size

/-- The registered names in ascending order. -/
def names (r : Registry) : List String := r.entries.names

/-- Every module that a compile can refer to. -/
def snapshot (r : Registry) : Snapshot := .ofList (r.names.filterMap r.reference?)

/-- The registered modules by the names they are registered under. -/
def resolver (r : Registry) : Resolver :=
  ⟨r.names.filterMap fun name => (r.resolve? name).map fun h => (name, h)⟩

/-! ## Admission -/

/--
What a compile can refer to for a module of the host: nothing if it has no file behind it or the
file is gone, and otherwise what the file says, which has to be about that module.
-/
def hostReference (files : Files) (h : Handle) : Except RegistryError (Option Reference) :=
  match h.location with
  | none => .ok none
  | some path =>
    match Reference.ofFile files path with
    | .error (.io _ .notFound) => .ok none
    | .error e => .error (.reference h.name e)
    | .ok r => if r.name = h.name then .ok (some r) else .error (.nameMismatch h.name r.name)

/-- Adds a module of the host unless its name is taken; then there is no new registry. -/
def enroll (r : Registry) (files : Files) (h : Handle) : Except RegistryError (Option Registry) :=
  if r.contains h.name then .ok none
  else
    match hostReference files h with
    | .error e => .error e
    | .ok reference => .ok (some ⟨r.entries.put h.name ⟨reference, h⟩⟩)

/--
Enrolls these modules in order and counts the new ones. The first that cannot be enrolled is an
error, and those before it stay.
-/
def enrollAll (files : Files) : Registry → List Handle → Except RegistryError Nat × Registry
  | r, [] => (.ok 0, r)
  | r, h :: hs =>
    match r.enroll files h with
    | .error e => (.error e, r)
    | .ok none => enrollAll files r hs
    | .ok (some r) =>
      match enrollAll files r hs with
      | (.ok n, r) => (.ok (n + 1), r)
      | (.error e, r) => (.error e, r)

/--
Takes note of a module loaded later. Modules without a file and modules from memory are left to
whoever loaded them, and so is a module that cannot be enrolled.
-/
def observe (r : Registry) (files : Files) (h : Handle) : Registry :=
  if h.dynamic || h.location.isNone then r
  else
    match r.enroll files h with
    | .ok (some r) => r
    | _ => r

/-- Sets what the name stands for, and gives the module that it stood for before. -/
def register (r : Registry) (name : String) (reference : Reference) (h : Handle) :
    Option Handle × Registry :=
  (r.resolve? name, ⟨r.entries.put name ⟨some reference, h⟩⟩)

end Registry

end Linkage
