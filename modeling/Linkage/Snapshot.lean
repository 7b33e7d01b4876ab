import Linkage.Interface.Decode

/-!
# Linkage.Snapshot

What a compile can refer to: interfaces of other modules by name, fixed for the whole compile.

* `names_pairwise_ofList` — the names of a snapshot ascend strictly.
-/

namespace Linkage

/-- Where an interface was read from. -/
inductive Origin where
  | file (path : String)
  | memory
  deriving DecidableEq

def Origin.text : Origin → String
  | .file path => path
  | .memory => "in-memory"

structure Reference where
  interface : Interface
  origin : Origin
  deriving DecidableEq

namespace Reference

def name (r : Reference) : String := r.interface.name

def inMemory (r : Reference) : Bool := r.origin == .memory

/-- The reference to a module whose image never touched a file. -/
def ofImage (image : Bytes) : Except FormatError Reference :=
  match Interface.decode image with
  | .error e => .error e
  | .ok i => .ok ⟨i, .memory⟩

end Reference

/-- References in ascending order of their names. -/
structure Snapshot where
  references : List Reference
  deriving DecidableEq

namespace Snapshot

def empty : Snapshot := ⟨[]⟩

/-- The first reference of a name stays when another one comes. -/
def insertInto (r : Reference) : List Reference → List Reference
  | [] => [r]
  | x :: xs =>
    if r.name < x.name then r :: x :: xs
    else if r.name = x.name then x :: xs
    else x :: insertInto r xs

def insert (s : Snapshot) (r : Reference) : Snapshot := ⟨insertInto r s.references⟩

def ofList (rs : List Reference) : Snapshot := rs.foldl insert empty

def get? (s : Snapshot) (name : String) : Option Reference :=
  s.references.find? (·.name == name)

def names (s : Snapshot) : List String := s.references.map (·.name)

/-- A type of another module. -/
def type? (s : Snapshot) (module name : String) : Option TypeDef :=
  match s.get? module with
  | none => none
  | some r => r.interface.type? name

/-- A constant of another module. -/
def const? (s : Snapshot) (module name : String) : Option ConstDef :=
  match s.get? module with
  | none => none
  | some r => r.interface.const? name

theorem mem_of_get? {s : Snapshot} {m : String} {r : Reference} (h : s.get? m = some r) :
    r ∈ s.references :=
  List.mem_of_find?_eq_some h

theorem name_of_get? {s : Snapshot} {m : String} {r : Reference} (h : s.get? m = some r) :
    r.name = m :=
  beq_iff_eq.1 (List.find?_some (p := fun r : Reference => r.name == m) h)

theorem const?_eq_some {s : Snapshot} {m x : String} {c : ConstDef} :
    s.const? m x = some c ↔ ∃ r, s.get? m = some r ∧ r.interface.const? x = some c := by
  unfold const?
  cases s.get? m with
  | none => simp
  | some r => simp

theorem mem_insertInto {r x : Reference} {xs : List Reference} (h : x ∈ insertInto r xs) :
    x = r ∨ x ∈ xs := by
  induction xs with
  | nil => simpa [insertInto] using h
  | cons y ys ih =>
    simp only [insertInto] at h
    split at h
    · simpa using h
    · split at h
      · exact .inr h
      · rcases List.mem_cons.1 h with rfl | h
        · exact .inr List.mem_cons_self
        · rcases ih h with rfl | h
          · exact .inl rfl
          · exact .inr (List.mem_cons_of_mem _ h)

theorem pairwise_insertInto {r : Reference} {xs : List Reference}
    (h : xs.Pairwise fun a b => a.name < b.name) :
    (insertInto r xs).Pairwise fun a b => a.name < b.name := by
  induction xs with
  | nil => simp [insertInto]
  | cons y ys ih =>
    obtain ⟨hy, hys⟩ := List.pairwise_cons.1 h
    simp only [insertInto]
    split
    · rename_i hlt
      refine List.pairwise_cons.2 ⟨fun z hz => ?_, h⟩
      rcases List.mem_cons.1 hz with rfl | hz
      · exact hlt
      · exact String.lt_trans hlt (hy z hz)
    · split
      · exact h
      · rename_i hnlt hne
        refine List.pairwise_cons.2 ⟨fun z hz => ?_, ih hys⟩
        rcases mem_insertInto hz with rfl | hz
        · rcases Decidable.em (y.name < z.name) with h' | h'
          · exact h'
          · exact absurd (String.le_antisymm (String.not_lt.1 h') (String.not_lt.1 hnlt)) hne
        · exact hy z hz

theorem names_pairwise_ofList (rs : List Reference) :
    (ofList rs).references.Pairwise fun a b => a.name < b.name := by
  suffices h : ∀ s : Snapshot, s.references.Pairwise (fun a b => a.name < b.name) →
      (rs.foldl insert s).references.Pairwise fun a b => a.name < b.name from h empty .nil
  induction rs with
  | nil => intro s hs; exact hs
  | cons r rs ih => intro s hs; exact ih _ (pairwise_insertInto hs)

end Snapshot

end Linkage
