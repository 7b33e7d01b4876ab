import Linkage.Build.Emission
import Linkage.Host.Basic

/-!
# Linkage.Host.Compile

Compiling into a host: a request is compiled against what a registry can refer to, the image is
loaded, and the registry's entry of that name is set to the new module.

* `Host.build` — into any registry, through any loader.
* `Host.compile` — through the linker, whose registry is initialized before its first compile.

Problems in the sources are diagnostics of a result. An error is the caller's invalid module name
or a defect of the host.
-/

namespace Linkage

structure Request where
  module : String
  sources : List Source
  debug : Bool

inductive CompileError where
  | invalidName (module : String)
  | load (module : String) (error : LoadError)
  | describe (module : String) (error : FormatError)
  | registry (error : RegistryError)
  deriving DecidableEq

namespace CompileError

def message : CompileError → String
  | .invalidName m => "invalid module name `" ++ m ++ "`"
  | .load m _ => "failed to load compiled module '" ++ m ++ "'"
  | .describe m _ => "failed to describe compiled module '" ++ m ++ "'"
  | .registry e => e.message

def causes : CompileError → List String
  | .invalidName _ => []
  | .load _ e => e.message :: e.causes
  | .describe _ e => [e.message]
  | .registry e => e.causes

/-- Whether the host and not the caller is at fault. -/
def isEnvironmentFailure : CompileError → Bool
  | .invalidName _ => false
  | _ => true

end CompileError

structure BuildResult where
  /-- The loaded module if the sources have no error. -/
  module : Option Handle
  diagnostics : List Diagnostic

namespace BuildResult

def success (r : BuildResult) : Bool := r.module.isSome

def withSeverity (r : BuildResult) (severity : Severity) : List Diagnostic :=
  r.diagnostics.filter (·.severity == severity)

end BuildResult

/-- `[A-Za-z_][A-Za-z0-9_]*` -/
def isModuleName (name : String) : Bool :=
  match name.toList with
  | [] => false
  | c :: cs => Token.isIdentStart c && cs.all Token.isIdentContinue

/-- Takes in an image with its debug symbols, or refuses it. -/
abbrev Loader : Type := Host → Bytes → Option Bytes → Except LoadError Handle × Host

namespace Host

/-- Compiles a request into a registry. Nothing is loaded or registered unless it succeeds. -/
def build (load : Loader) (id : RegistryId) (forceDebug : Bool) (host : Host)
    (request : Request) : Except CompileError BuildResult × Host :=
  let name := request.module
  if isModuleName name then
    let options := Options.forMode (request.debug || forceDebug)
    let emission := Linkage.compile options name request.sources (host.registry id).snapshot
    match emission.output with
    | none => (.ok ⟨none, emission.diagnostics⟩, host)
    | some output =>
      match load host output.image output.symbols with
      | (.error e, host) => (.error (.load name e), host)
      | (.ok h, host) =>
        match Reference.ofImage output.image with
        | .error e => (.error (.describe name e), host)
        | .ok reference =>
          let (_, r) := (host.registry id).register name reference h
          (.ok ⟨some h, emission.diagnostics⟩, host.setRegistry r id)
  else (.error (.invalidName name), host)

/-! ## The linker -/

/-- Under continuous observation the linker subscribes once, before it looks at what is loaded. -/
def attachLinker (host : Host) : Host :=
  if host.linker.config.observation = .continuous ∧ host.linker.attached = false then
    let host := host.subscribe .linker
    { host with linker := { host.linker with attached := true } }
  else host

/-- Initializes the linker's registry unless that is done; a failure leaves it to be done. -/
def prepare (host : Host) : Except CompileError Unit × Host :=
  if host.linker.initialized then (.ok (), host)
  else
    match host.attachLinker.initRegistry .linker with
    | (.error e, host) => (.error (.registry e), host)
    | (.ok _, host) =>
      (.ok (), { host with linker := { host.linker with initialized := true } })

def compile (host : Host) (request : Request) : Except CompileError BuildResult × Host :=
  match host.prepare with
  | (.error e, host) => (.error e, host)
  | (.ok _, host) => host.build loadImage .linker host.linker.config.forceDebug request

/-- The module that a name stands for with the linker. -/
def resolve? (host : Host) (name : String) : Option Handle := host.linker.registry.resolve? name

end Host

end Linkage
