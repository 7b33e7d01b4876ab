import Linkage.Span
import Linkage.Wire.Read

/-!
# Linkage.Symbols

Debug symbols: where each member of a module was declared, in a binary format of its own beside
the image.
-/

namespace Linkage

namespace Symbols

inductive EntryKind where
  | type
  | field
  | constant
  deriving DecidableEq

/-- Where a member was declared. Its name is `Type`, `Type.field` or `CONSTANT`. -/
structure Entry where
  kind : EntryKind
  name : String
  unit : UInt32
  span : Span
  deriving DecidableEq

end Symbols

structure Symbols where
  module : String
  /-- The origin of each source unit in the order of submission. -/
  units : List String
  entries : List Symbols.Entry
  deriving DecidableEq

namespace Symbols

open Wire

/-- The first entry of this qualified name. -/
def lookup? (s : Symbols) (name : String) : Option Entry := s.entries.find? (·.name == name)

def origin? (s : Symbols) (e : Entry) : Option String := s.units[e.unit.toNat]?

/-! ## Bytes -/

def EntryKind.tag : EntryKind → UInt8
  | .type => 0
  | .field => 1
  | .constant => 2

def EntryKind.ofTag? : UInt8 → Option EntryKind
  | 0 => some .type
  | 1 => some .field
  | 2 => some .constant
  | _ => none

/-- The format of debug symbols: "MLDB", version 1. -/
def format : Format := ⟨[0x4d, 0x4c, 0x44, 0x42], 1⟩

def Entry.encode (e : Entry) : Bytes :=
  e.kind.tag :: (str e.name ++ u32 e.unit ++ u32 e.span.line ++ u32 e.span.col ++ u32 e.span.len)

def body (s : Symbols) : Bytes :=
  str s.module ++ list str s.units ++ list Entry.encode s.entries

def encode (s : Symbols) : Bytes := format.envelope s.body

def Entry.reader : Reader Entry := do
  let kind ← Reader.tag "symbol kind" EntryKind.ofTag?
  let name ← Reader.string
  let unit ← Reader.u32
  let line ← Reader.u32
  let col ← Reader.u32
  let len ← Reader.u32
  return ⟨kind, name, unit, ⟨line, col, len⟩⟩

def reader : Reader Symbols := do
  let module ← Reader.string
  let units ← Reader.list Reader.string
  let entries ← Reader.list Entry.reader
  return ⟨module, units, entries⟩

def decode (bs : Bytes) : Except FormatError Symbols := format.unwrap reader bs

end Symbols

end Linkage
