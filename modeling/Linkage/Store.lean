/-!
# Linkage.Store

Finite maps from names. Main statement: what a name gives after `put` and after `erase`.
-/

namespace Linkage

structure Store (α : Type) where
  entries : List (String × α)

namespace Store

variable {α : Type}

def empty : Store α := ⟨[]⟩

def get? (s : Store α) (name : String) : Option α := s.entries.lookup name

def contains (s : Store α) (name : String) : Bool := (s.get? name).isSome

/-- Sets the value of a name, whether it had one or not. -/
def put (s : Store α) (name : String) (a : α) : Store α :=
  ⟨(name, a) :: s.entries.filter (·.1 != name)⟩

def erase (s : Store α) (name : String) : Store α := ⟨s.entries.filter (·.1 != name)⟩

def size (s : Store α) : Nat := s.entries.length

def isEmpty (s : Store α) : Bool := s.entries.isEmpty

/-- The names in ascending order. -/
def names (s : Store α) : List String := (s.entries.map Prod.fst).mergeSort fun a b => a ≤ b

theorem get?_empty (name : String) : (empty : Store α).get? name = none := rfl

theorem lookup_filter_ne {name other : String} (h : other ≠ name) (es : List (String × α)) :
    (es.filter (·.1 != name)).lookup other = es.lookup other := by
  induction es with
  | nil => rfl
  | cons e es ih =>
    obtain ⟨k, a⟩ := e
    by_cases hk : k = name
    · subst hk
      have : (other == k) = false := by simpa using h
      simp [List.lookup_cons, ih, this]
    · simp [hk, List.lookup_cons, ih]

theorem lookup_filter_self (name : String) (es : List (String × α)) :
    (es.filter (·.1 != name)).lookup name = none := by
  induction es with
  | nil => rfl
  | cons e es ih =>
    obtain ⟨k, a⟩ := e
    by_cases hk : k = name
    · simp only [hk, bne_self_eq_false, Bool.false_eq_true, not_false_eq_true,
        List.filter_cons_of_neg, ih]
    · have h : (name == k) = false := by simpa using Ne.symm hk
      rw [List.filter_cons_of_pos (by simpa using hk), List.lookup_cons, h, ih]

theorem get?_put (s : Store α) (name other : String) (a : α) :
    (s.put name a).get? other = if other = name then some a else s.get? other := by
  by_cases h : other = name
  · simp [put, get?, h]
  · have : (other == name) = false := by simpa using h
    simp [put, get?, List.lookup_cons, this, h, lookup_filter_ne h]

theorem get?_erase (s : Store α) (name other : String) :
    (s.erase name).get? other = if other = name then none else s.get? other := by
  by_cases h : other = name
  · simp [erase, get?, h, lookup_filter_self]
  · simp [erase, get?, h, lookup_filter_ne h]

end Store

end Linkage
