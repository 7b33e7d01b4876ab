import Linkage.Evaluation
import Linkage.Host.Catalog
import Linkage.Host.Config
import Linkage.Host.Registry

/-!
# Linkage.Host.Basic

A host: its files, the modules it has loaded, its registries and those who are told of loads. One
registry belongs to the linker, the others stand on their own and have names.

A module is linked in two steps: the catalog takes it in, then each subscription is served in turn.
-/

namespace Linkage

/-- What the host's linker is doing: its settings, its registry and how far it has come. -/
structure Linker where
  config : Config
  registry : Registry
  /-- Whether the registry holds what was loaded before the first compile. -/
  initialized : Bool
  /-- Whether the registry is told of later loads. -/
  attached : Bool

def Linker.fresh (config : Config) : Linker := ⟨config, .empty, false, false⟩

structure Host where
  files : Files
  catalog : Catalog
  registries : Store Registry
  recorders : Store (List Handle)
  linker : Linker

/-- One of a host's registries. -/
inductive RegistryId where
  | linker
  | named (name : String)
  deriving DecidableEq

namespace Host

/-- A host without files and modules. -/
def fresh (config : Config) : Host := ⟨.empty, .empty, .empty, .empty, .fresh config⟩

/-! ## Files -/

def writeFile (host : Host) (path : String) (content : Bytes) : Host :=
  { host with files := host.files.put path (.file content) }

def makeDirectory (host : Host) (path : String) : Host :=
  { host with files := host.files.put path .directory }

def removeFile (host : Host) (path : String) : Host :=
  { host with files := host.files.erase path }

/-! ## Registries -/

def registry (host : Host) : RegistryId → Registry
  | .linker => host.linker.registry
  | .named name => (host.registries.get? name).getD .empty

def setRegistry (host : Host) (r : Registry) : RegistryId → Host
  | .linker => { host with linker := { host.linker with registry := r } }
  | .named name => { host with registries := host.registries.put name r }

/-- Makes an empty registry of this name unless there is one. -/
def openRegistry (host : Host) (name : String) : Host :=
  if host.registries.contains name then host
  else { host with registries := host.registries.put name .empty }

/-- Adds what is loaded to a registry. -/
def initRegistry (host : Host) (id : RegistryId) : Except RegistryError Nat × Host :=
  let (result, r) := (host.registry id).enrollAll host.files host.catalog.modules
  (result, host.setRegistry r id)

/-! ## Observers -/

def openRecorder (host : Host) (name : String) : Host :=
  if host.recorders.contains name then host
  else { host with recorders := host.recorders.put name [] }

def subscribe (host : Host) (o : Observer) : Host :=
  { host with catalog := host.catalog.subscribe o }

/-- Drops a registry with its subscriptions. -/
def dropRegistry (host : Host) (name : String) : Host :=
  { host with
    registries := host.registries.erase name
    catalog := host.catalog.unsubscribe (.registry name) }

/-- Drops a recorder with its subscriptions. -/
def dropRecorder (host : Host) (name : String) : Host :=
  { host with
    recorders := host.recorders.erase name
    catalog := host.catalog.unsubscribe (.recorder name) }

/-- Tells one observer of a loaded module. -/
def tell (host : Host) (h : Handle) : Observer → Host
  | .linker => host.setRegistry ((host.registry .linker).observe host.files h) .linker
  | .registry name =>
    host.setRegistry ((host.registry (.named name)).observe host.files h) (.named name)
  | .recorder name =>
    { host with
      recorders := host.recorders.put name ((host.recorders.get? name).getD [] ++ [h]) }

/-! ## Loading -/

/-- Links a module and serves every subscription. -/
def link (host : Host) (interface : Interface) (symbols : Option Symbols)
    (location : Option String) (dynamic : Bool) : Handle × Host :=
  let (h, catalog) := host.catalog.link interface symbols location dynamic
  (h, catalog.observers.foldl (fun host o => host.tell h o) { host with catalog := catalog })

/-- Adds a module that comes with the host, perhaps with an image file behind it. -/
def addNative (host : Host) (interface : Interface) (location : Option String) : Handle × Host :=
  host.link interface none location false

/-- Loads an image; one that cannot be loaded leaves the host as it is. -/
def loadImage (host : Host) (image : Bytes) (symbols : Option Bytes) :
    Except LoadError Handle × Host :=
  match Catalog.readImage image symbols with
  | .error e => (.error e, host)
  | .ok (i, s) =>
    let (h, host) := host.link i s none true
    (.ok h, host)

end Host

end Linkage
