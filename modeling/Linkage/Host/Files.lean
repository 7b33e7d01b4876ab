import Linkage.Snapshot
import Linkage.Store

/-!
# Linkage.Host.Files

The files of the host that hold module images, and reading a reference from one.
-/

namespace Linkage

/-- What a path names. -/
inductive FileEntry where
  | file (content : Bytes)
  | directory
  deriving DecidableEq

abbrev Files : Type := Store FileEntry

inductive IoError where
  | notFound
  | isDirectory
  deriving DecidableEq

def IoError.message : IoError → String
  | .notFound => "io: NotFound"
  | .isDirectory => "io: IsADirectory"

namespace Files

def read (files : Files) (path : String) : Except IoError Bytes :=
  match files.get? path with
  | none => .error .notFound
  | some .directory => .error .isDirectory
  | some (.file content) => .ok content

end Files

/-- Why a file gives no reference. -/
inductive ReferenceError where
  | io (path : String) (error : IoError)
  | image (path : String) (error : FormatError)
  deriving DecidableEq

namespace ReferenceError

def message : ReferenceError → String
  | .io path _ => "failed to read module image '" ++ path ++ "'"
  | .image path _ => "malformed module image '" ++ path ++ "'"

/-- What lies behind the error, each cause with what lies behind it after it. -/
def causes : ReferenceError → List String
  | .io _ e => [e.message]
  | .image _ e => [e.message]

end ReferenceError

/-- The reference to the module whose image this file holds. -/
def Reference.ofFile (files : Files) (path : String) : Except ReferenceError Reference :=
  match files.read path with
  | .error e => .error (.io path e)
  | .ok content =>
    match Interface.decode content with
    | .error e => .error (.image path e)
    | .ok i => .ok ⟨i, .file path⟩

end Linkage
