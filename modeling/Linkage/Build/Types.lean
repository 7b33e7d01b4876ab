import Linkage.Build.Scope
import Linkage.Graph

/-!
# Linkage.Build.Types

The types of a module with their bases and field types resolved.

* A base may be neither builtin nor sealed; one that is does not count as a base from there on.
* A field name may not be repeated within a type.
* Bases may not form a cycle; each cycle is reported once, at its first type, and its types are
  marked.
* A field that repeats the name of an inherited field is worth a warning.
-/

namespace Linkage

structure ResolvedField where
  decl : Script.FieldDecl
  type : TypeRef

structure ResolvedType where
  base : Option TypeRef
  fields : List ResolvedField
  /-- Whether the type lies on a cycle of bases. -/
  inCycle : Bool

namespace Scope

/-! ## Bases and fields -/

/-- Why a type cannot be extended. -/
def baseRefusal? (s : Scope) (name : String) (path : Script.Path) : TypeRef → Option Problem
  | .builtin kind => some (.builtinBase name kind)
  | .own base =>
    if s.decls.types.any fun t => t.decl.name.name == base && t.decl.modifiers.isSealed
    then some (.sealedBase name path.text) else none
  | .imported module base =>
    match s.snapshot.type? module base with
    | some t => if t.modifiers.isSealed then some (.sealedBase name path.text) else none
    | none => none

def resolveBase (s : Scope) (unit : Nat) (t : Script.TypeDecl) : Pass (Option TypeRef) :=
  match t.base with
  | none => ⟨none, [], []⟩
  | some path =>
    match (s.typeRef path).found with
    | .error (problem, span) =>
      ⟨none, [problem.located unit span], (s.typeRef path).modules⟩
    | .ok base =>
      match s.baseRefusal? t.name.name path base with
      | some problem => ⟨none, [problem.located unit path.span], (s.typeRef path).modules⟩
      | none => ⟨some base, [], (s.typeRef path).modules⟩

/-- The fields with the names before them; a repeated name is reported and not looked into. -/
def resolveFields (s : Scope) (unit : Nat) (type : String) :
    List String → List Script.FieldDecl → Pass (List ResolvedField)
  | _, [] => ⟨[], [], []⟩
  | seen, f :: fs =>
    let name := f.name.name
    if seen.contains name then
      let others := s.resolveFields unit type seen fs
      { others with
        diagnostics :=
          (Problem.duplicateField name type).located unit f.name.span :: others.diagnostics }
    else
      let others := s.resolveFields unit type (name :: seen) fs
      let modules := (s.typeRef f.type).modules ++ others.modules
      match (s.typeRef f.type).found with
      | .ok type => ⟨⟨f, type⟩ :: others.result, others.diagnostics, modules⟩
      | .error (problem, span) =>
        ⟨others.result, problem.located unit span :: others.diagnostics, modules⟩

def resolveType (s : Scope) (t : Declared Script.TypeDecl) : Pass ResolvedType :=
  let base := s.resolveBase t.unit t.decl
  let fields := s.resolveFields t.unit t.decl.name.name [] t.decl.fields
  ⟨⟨base.result, fields.result, false⟩, base.diagnostics ++ fields.diagnostics,
    base.modules ++ fields.modules⟩

/-! ## Cycles of bases -/

/-- The index of the base if it is a type of the module. -/
def baseId? (s : Scope) (t : ResolvedType) : Option Nat :=
  match t.base with
  | some (.own name) => s.decls.typeId? name
  | _ => none

/-- An edge from each type to the type of the module that it extends. -/
def baseGraph (s : Scope) (types : List ResolvedType) : Graph :=
  ⟨types.length, types.zipIdx.filterMap fun (t, id) => (s.baseId? t).map fun base => (id, base)⟩

def typeName (s : Scope) (id : Nat) : String :=
  match s.decls.types[id]? with
  | some t => t.decl.name.name
  | none => ""

/--
The names from `id` along the bases until `start` is reached, over at most `n` types. Every type
has one base, so from a type on a cycle this walks round it.
-/
def baseChain (s : Scope) (types : List ResolvedType) (start : Nat) : Nat → Nat → List String
  | 0, _ => []
  | n + 1, id =>
    match types[id]?.bind s.baseId? with
    | none => []
    | some base =>
      s.typeName base :: if base = start then [] else s.baseChain types start n base

def reportBaseCycle (s : Scope) (types : List ResolvedType) (cycle : List Nat) :
    List Diagnostic :=
  match cycle with
  | [] => []
  | start :: _ =>
    match s.decls.types[start]? with
    | none => []
    | some t =>
      let chain := t.decl.name.name :: s.baseChain types start types.length start
      [(Problem.inheritanceCycle chain).located t.unit t.decl.name.span]

/-- Marks the types at these indices. -/
def markCyclic (cyclic : List Nat) (types : List ResolvedType) : List ResolvedType :=
  types.mapIdx fun id t => if cyclic.contains id then { t with inCycle := true } else t

/-! ## Inherited fields -/

/-- A resolved type with the index of its base if that is a type of the module. -/
abbrev Linked := ResolvedType × Option Nat

def linked (s : Scope) (types : List ResolvedType) : Array Linked :=
  (types.map fun t => (t, s.baseId? t)).toArray

/--
The fields inherited through a base in another module, each with the type that declares it,
nearest first. The walk ends at a type that is not there or that it has been at before; `n` bounds
its length.
-/
def importedFields (s : Scope) : Nat → List String → TypeRef → List (String × String)
  | 0, _, _ => []
  | n + 1, visited, base =>
    if visited.contains base.text then []
    else
      match base with
      | .imported module name =>
        match s.snapshot.type? module name with
        | none => []
        | some t =>
          t.fields.map (fun f => (f.name, base.text)) ++
            match t.base with
            | none => []
            -- A base stored in another module is relative to that module.
            | some (.own next) =>
              s.importedFields n (base.text :: visited) (.imported module next)
            | some next => s.importedFields n (base.text :: visited) next
      | _ => []

/-- More types than there are to inherit from in other modules. -/
def importedBound (s : Scope) : Nat :=
  (s.snapshot.references.flatMap (·.interface.types)).length + 1

/--
The fields that the type at `id` inherits, each with the type that declares it, nearest first. The
walk ends before a type that is marked, so it meets no type of the module twice; `n` bounds how
many.
-/
def inherited (s : Scope) (types : Array Linked) : Nat → Nat → List (String × String)
  | 0, _ => []
  | n + 1, id =>
    match types[id]? with
    | none => []
    | some (t, link) =>
      match t.base, link with
      | none, _ => []
      | some base, none => s.importedFields s.importedBound [] base
      | some base, some next =>
        match types[next]? with
        | none => []
        | some (u, _) =>
          if u.inCycle then []
          else u.fields.map (fun f => (f.decl.name.name, base.text)) ++ s.inherited types n next

def reportShadowing (s : Scope) (types : Array Linked) (declared : Declared Script.TypeDecl)
    (id : Nat) (t : ResolvedType) : List Diagnostic :=
  if t.inCycle then []
  else
    let inherited := s.inherited types types.size id
    t.fields.filterMap fun f =>
      let name := f.decl.name.name
      match inherited.find? (·.1 == name) with
      | none => none
      | some (_, owner) =>
        some ((Problem.shadowedField name declared.decl.name.name owner).located declared.unit
          f.decl.name.span)

/-! ## All types -/

/-- The types in declaration order with everything that is wrong with them. -/
def resolveTypes (s : Scope) : Pass (List ResolvedType) :=
  let passes := s.decls.types.map s.resolveType
  let resolved := passes.map (·.result)
  let cycles := (s.baseGraph resolved).cycles
  let types := markCyclic cycles.flatten resolved
  let links := s.linked types
  let shadowing := (s.decls.types.zip types).zipIdx.flatMap fun ((declared, t), id) =>
    s.reportShadowing links declared id t
  { result := types
    diagnostics := passes.flatMap (·.diagnostics) ++ cycles.flatMap (s.reportBaseCycle resolved) ++
      shadowing
    modules := passes.flatMap (·.modules) }

end Scope

end Linkage
