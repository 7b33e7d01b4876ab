import Linkage.Hash.Member

/-!
# Linkage.Proofs.Hash.Member

Member hashes add no collisions to those of the hash of names, whatever that is.

* `typeWith`, `constantWith`, `fieldWith` — member hashes over any hash of bytes.
* `combine_owner_inj` — the spread of the owner's hash is undone by the inverse of the separator,
  which has one modulo 2 ^ 64 because it is odd.
* `Separates` — two hashes that differ in one argument agree only if the hashes of that argument
  do, and no type has the hash of a constant.
-/

namespace Linkage
namespace MemberHash

/-! ## The three steps of a combination -/

/-- Times the separator it is one modulo 2 ^ 64. -/
def separatorInverse : UInt64 := 0xd3f20f0a40208825

theorem separator_mul_separatorInverse : separator * separatorInverse = 1 := by decide

/-- Multiplication by the separator loses nothing. -/
theorem mul_separator_inj {a b : UInt64} : a * separator = b * separator ↔ a = b := by
  refine ⟨fun h => ?_, fun h => h ▸ rfl⟩
  calc a = a * separator * separatorInverse := by
        rw [UInt64.mul_assoc, separator_mul_separatorInverse, UInt64.mul_one]
    _ = b * separator * separatorInverse := by rw [h]
    _ = b := by rw [UInt64.mul_assoc, separator_mul_separatorInverse, UInt64.mul_one]

variable {mask mask' owner owner' name name' : UInt64}

theorem combine_owner_inj :
    combine mask owner name = combine mask owner' name ↔ owner = owner' := by
  rw [combine, combine, mk.injEq, UInt64.xor_right_inj, UInt64.add_left_inj, mul_separator_inj]

theorem combine_name_inj : combine mask owner name = combine mask owner name' ↔ name = name' := by
  rw [combine, combine, mk.injEq, UInt64.xor_right_inj, UInt64.add_right_inj]

theorem combine_mask_inj : combine mask owner name = combine mask' owner name ↔ mask = mask' := by
  rw [combine, combine, mk.injEq, UInt64.xor_left_inj]

/-! ## Over any hash of names -/

section

variable (hash : List UInt8 → UInt64)

def typeWith (module name : String) : MemberHash :=
  combine typeMask (hash (Text.bytes module)) (hash (Text.bytes name))

def constantWith (module name : String) : MemberHash :=
  combine constantMask (hash (Text.bytes module)) (hash (Text.bytes name))

def fieldWith (owner : MemberHash) (name : String) : MemberHash :=
  combine fieldMask owner.bits (hash (Text.bytes name))

end

theorem ofType_eq_typeWith : ofType = typeWith xxh64 := rfl

theorem ofConstant_eq_constantWith : ofConstant = constantWith xxh64 := rfl

theorem ofField_eq_fieldWith : ofField = fieldWith xxh64 := rfl

/-- Hashes of types, constants and fields that only collide where the hashes of names do. -/
structure Separates (hash : List UInt8 → UInt64) (type constant : String → String → MemberHash)
    (field : MemberHash → String → MemberHash) : Prop where
  type_module : ∀ m₁ m₂ n, type m₁ n = type m₂ n ↔ hash (Text.bytes m₁) = hash (Text.bytes m₂)
  type_name : ∀ m n₁ n₂, type m n₁ = type m n₂ ↔ hash (Text.bytes n₁) = hash (Text.bytes n₂)
  constant_module : ∀ m₁ m₂ n,
    constant m₁ n = constant m₂ n ↔ hash (Text.bytes m₁) = hash (Text.bytes m₂)
  constant_name : ∀ m n₁ n₂,
    constant m n₁ = constant m n₂ ↔ hash (Text.bytes n₁) = hash (Text.bytes n₂)
  field_owner : ∀ o₁ o₂ n, field o₁ n = field o₂ n ↔ o₁ = o₂
  field_name : ∀ o n₁ n₂, field o n₁ = field o n₂ ↔ hash (Text.bytes n₁) = hash (Text.bytes n₂)
  type_ne_constant : ∀ m n, type m n ≠ constant m n

theorem separates_with (hash : List UInt8 → UInt64) :
    Separates hash (typeWith hash) (constantWith hash) (fieldWith hash) where
  type_module _ _ _ := combine_owner_inj
  type_name _ _ _ := combine_name_inj
  constant_module _ _ _ := combine_owner_inj
  constant_name _ _ _ := combine_name_inj
  field_owner := fun ⟨_⟩ ⟨_⟩ _ => combine_owner_inj.trans (by rw [mk.injEq])
  field_name _ _ _ := combine_name_inj
  type_ne_constant _ _ h :=
    have hmasks : typeMask ≠ constantMask := by decide
    hmasks (combine_mask_inj.1 h)

/--
Whatever hashes the names, a type, a constant or a field takes over the collisions of one hash of
a name and has none of its own; and the hashes in use are these, over xxHash.
-/
theorem no_own_collisions :
    (∀ hash, Separates hash (typeWith hash) (constantWith hash) (fieldWith hash)) ∧
      Separates xxh64 ofType ofConstant ofField := by
  refine ⟨separates_with, ?_⟩
  rw [ofType_eq_typeWith, ofConstant_eq_constantWith, ofField_eq_fieldWith]
  exact separates_with xxh64

end MemberHash
end Linkage
