import Linkage.Host.Compile

/-!
# Linkage.Host.Session

What can happen to a host, as data, and a host that keeps one linker for everything in it.

* `Host.after` — the host after one event, whatever the event answers.
* `Host.run` — the host after a whole history: the events in the order in which they happen.
* `Session` — a linker is put in place once: explicitly before its first use, or else at its first
  use with the settings of the environment.
-/

namespace Linkage

/-! ## Histories -/

inductive Event where
  | writeFile (path : String) (content : Bytes)
  | makeDirectory (path : String)
  | removeFile (path : String)
  | addNative (interface : Interface) (location : Option String)
  | loadImage (image : Bytes) (symbols : Option Bytes)
  /-- The linker initializes its registry ahead of its first compile. -/
  | prepare
  | compile (request : Request)

namespace Host

def after (host : Host) : Event → Host
  | .writeFile path content => host.writeFile path content
  | .makeDirectory path => host.makeDirectory path
  | .removeFile path => host.removeFile path
  | .addNative interface location => (host.addNative interface location).2
  | .loadImage image symbols => (host.loadImage image symbols).2
  | .prepare => host.prepare.2
  | .compile request => (host.compile request).2

def run (host : Host) (history : List Event) : Host := history.foldl after host

theorem run_append (host : Host) (first later : List Event) :
    host.run (first ++ later) = (host.run first).run later :=
  List.foldl_append

end Host

/-! ## Sessions -/

structure Session where
  environment : Store String
  host : Host
  /-- Whether the linker is in place. Until then it is fresh and only its settings are open. -/
  inPlace : Bool

namespace Session

def start (environment : Store String) : Session := ⟨environment, .fresh .default, false⟩

/-- The session with its linker in place. -/
def ensure (s : Session) : Session :=
  if s.inPlace then s
  else
    let config := Config.ofLookupOrDefault s.environment.get?
    { s with host := { s.host with linker := .fresh config }, inPlace := true }

/-- Puts a linker with these settings in place, or refuses if there is one. -/
def install (s : Session) (config : Config) : Bool × Session :=
  if s.inPlace then (false, s)
  else (true, { s with host := { s.host with linker := .fresh config }, inPlace := true })

end Session

end Linkage
