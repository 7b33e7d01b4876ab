import Linkage.Text.Blank

/-!
# Linkage.Host.Config

Settings of a linker, given as data or read from environment variables.
-/

namespace Linkage

/-- How a registry learns of modules that are loaded after its initialization. -/
inductive Observation where
  /-- Not at all. -/
  | snapshot
  /-- It is told of each one. -/
  | continuous
  deriving DecidableEq

def Observation.name : Observation → String
  | .snapshot => "snapshot"
  | .continuous => "continuous"

structure Config where
  /-- Every module is built in debug mode, whatever a request says. -/
  forceDebug : Bool
  observation : Observation
  deriving DecidableEq

inductive ConfigError where
  | invalidValue (var value expected : String)
  deriving DecidableEq

def ConfigError.message : ConfigError → String
  | .invalidValue var value expected =>
    "invalid value `" ++ value ++ "` for " ++ var ++ ", expected " ++ expected

namespace Config

def default : Config := ⟨false, .snapshot⟩

def forceDebugVar : String := "MODLINK_FORCE_DEBUG"

def observeVar : String := "MODLINK_OBSERVE"

/-- Case and surrounding white space do not matter in a variable. -/
def normal (value : String) : String :=
  String.ofList ((Text.trim value.toList).map Char.toLower)

def flag? (value : String) : Option Bool :=
  match normal value with
  | "1" => some true
  | "true" => some true
  | "yes" => some true
  | "on" => some true
  | "" => some false
  | "0" => some false
  | "false" => some false
  | "no" => some false
  | "off" => some false
  | _ => none

def observation? (value : String) : Option Observation :=
  match normal value with
  | "snapshot" => some .snapshot
  | "continuous" => some .continuous
  | _ => none

/-- A variable read by its rule; one that is not set leaves the default. -/
def readVar {α : Type} (lookup : String → Option String) (var expected : String)
    (rule : String → Option α) (unset : α) : Except ConfigError α :=
  match lookup var with
  | none => .ok unset
  | some value =>
    match rule value with
    | some a => .ok a
    | none => .error (.invalidValue var value expected)

def ofLookup (lookup : String → Option String) : Except ConfigError Config :=
  match readVar lookup forceDebugVar "a boolean flag" flag? false with
  | .error e => .error e
  | .ok forceDebug =>
    match readVar lookup observeVar "`snapshot` or `continuous`" observation? .snapshot with
    | .error e => .error e
    | .ok observation => .ok ⟨forceDebug, observation⟩

/-- The settings of the variables, or the default ones if a variable has no valid value. -/
def ofLookupOrDefault (lookup : String → Option String) : Config :=
  match ofLookup lookup with
  | .ok c => c
  | .error _ => default

end Config

end Linkage
