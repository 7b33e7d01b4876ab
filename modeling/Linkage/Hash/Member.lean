import Linkage.Hash.Xxh64
import Linkage.Text.Quoted
import Linkage.Text.Utf8

/-!
# Linkage.Hash.Member

Hashes of members: 64-bit identities of types, constants and fields, derived from names alone.
The hash of the owner is spread by an odd factor before that of the name is added, and a mask for
each kind of member keeps a type and a constant of one name apart.
-/

namespace Linkage

structure MemberHash where
  bits : UInt64
  deriving DecidableEq, Inhabited

namespace MemberHash

def separator : UInt64 := 0x4bc94d6bd06053ad

def typeMask : UInt64 := 0x2fac10b63a6cc57c
def constantMask : UInt64 := 0x5ea77ffbcdf5f302
def fieldMask : UInt64 := 0x7d3c8b4a92e15f6d

def nameHash (name : String) : UInt64 := xxh64 (Text.bytes name)

/-- The hash of a member from the hashes of its owner and of its name. -/
def combine (mask owner name : UInt64) : MemberHash := ⟨mask ^^^ (owner * separator + name)⟩

def ofType (module name : String) : MemberHash :=
  combine typeMask (nameHash module) (nameHash name)

def ofConstant (module name : String) : MemberHash :=
  combine constantMask (nameHash module) (nameHash name)

def ofField (owner : MemberHash) (name : String) : MemberHash :=
  combine fieldMask owner.bits (nameHash name)

/-- The hash that stands for no member. -/
def empty : MemberHash := ⟨0⟩

def isEmpty (h : MemberHash) : Bool := h == empty

def text (h : MemberHash) : String := "0x" ++ Text.hex16 h.bits

end MemberHash

end Linkage
