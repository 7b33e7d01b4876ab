import Linkage.Handle
import Linkage.Store

/-!
# Linkage.Host.Catalog

The modules that are loaded, in load order, and who is told of the next ones.
-/

namespace Linkage

/-- Who can be told of loaded modules. -/
inductive Observer where
  /-- The registry of the linker. -/
  | linker
  /-- A registry of its own. -/
  | registry (name : String)
  /-- A list of the modules it was told of. -/
  | recorder (name : String)
  deriving DecidableEq

/-- Why an image cannot be loaded. -/
inductive LoadError where
  | image (error : FormatError)
  | symbols (error : FormatError)
  | symbolMismatch (image symbols : String)
  deriving DecidableEq

namespace LoadError

def message : LoadError → String
  | .image e => "invalid module image: " ++ e.message
  | .symbols e => "invalid debug symbols: " ++ e.message
  | .symbolMismatch found named =>
    "debug symbols belong to module '" ++ named ++ "', not '" ++ found ++ "'"

def causes : LoadError → List String
  | .image e => [e.message]
  | .symbols e => [e.message]
  | .symbolMismatch _ _ => []

end LoadError

structure Catalog where
  /-- In load order. -/
  modules : List Handle
  /-- The number of the next module. -/
  nextId : Nat
  /-- One for each subscription, in the order of subscription. -/
  observers : List Observer

namespace Catalog

def empty : Catalog := ⟨[], 0, []⟩

/-- Links a module, which gets the next number. -/
def link (c : Catalog) (interface : Interface) (symbols : Option Symbols)
    (location : Option String) (dynamic : Bool) : Handle × Catalog :=
  let h : Handle := ⟨c.nextId, interface, symbols, location, dynamic⟩
  (h, { c with modules := c.modules ++ [h], nextId := c.nextId + 1 })

def subscribe (c : Catalog) (o : Observer) : Catalog :=
  { c with observers := c.observers ++ [o] }

/-- Ends every subscription of an observer. -/
def unsubscribe (c : Catalog) (o : Observer) : Catalog :=
  { c with observers := c.observers.filter (· ≠ o) }

/-- What an image and its debug symbols say, which have to be about one module. -/
def readImage (image : Bytes) (symbols : Option Bytes) :
    Except LoadError (Interface × Option Symbols) :=
  match Interface.decode image with
  | .error e => .error (.image e)
  | .ok i =>
    match symbols with
    | none => .ok (i, none)
    | some bs =>
      match Symbols.decode bs with
      | .error e => .error (.symbols e)
      | .ok s =>
        if s.module = i.name then .ok (i, some s)
        else .error (.symbolMismatch i.name s.module)

end Catalog

end Linkage
