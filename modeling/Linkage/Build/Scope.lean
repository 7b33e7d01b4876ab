import Linkage.Build.Declarations
import Linkage.Snapshot

/-!
# Linkage.Build.Scope

What the paths in a module's sources mean.

* `Name` — a builtin type, or else a declaration of the module.
* `Self.Name` — a declaration of the module, named by the module's own name.
* `Other.Name` — a member of another module of the snapshot.

Looking up a path of the last kind takes another module from the snapshot. Every lookup says which
one, and each pass collects what its lookups say: these are the modules that an image refers to.
-/

namespace Linkage

structure Scope where
  /-- The name of the module being compiled. -/
  module : String
  snapshot : Snapshot
  decls : Declarations

/-- What a path in an expression leads to. -/
inductive ConstTarget where
  /-- A constant of the module being compiled, by its index. -/
  | own (id : Nat)
  | imported (module : String) (constant : ConstDef)

/-- What looking up a path comes to, and the other modules that it took from the snapshot. -/
structure Lookup (α : Type) where
  found : Except (Problem × Span) α
  modules : List String

namespace Lookup

variable {α β : Type}

/-- A lookup within the module being compiled. -/
def inside (found : Except (Problem × Span) α) : Lookup α := ⟨found, []⟩

/-- Goes on with what was found. The modules stay, whatever comes of it. -/
def andThen (l : Lookup α) (f : α → Except (Problem × Span) β) : Lookup β :=
  match l.found with
  | .ok a => ⟨f a, l.modules⟩
  | .error e => ⟨.error e, l.modules⟩

end Lookup

/-- What a pass makes and reports, and the modules that its lookups took, in their order. -/
structure Pass (α : Type) where
  result : α
  diagnostics : List Diagnostic
  modules : List String

namespace Scope

/-- The qualifier of a path if it leads out of the module. -/
def outward? (s : Scope) (p : Script.Path) : Option Script.Ident :=
  match p.qualifier with
  | none => none
  | some q => if q.name = s.module then none else some q

def ownType (s : Scope) (p : Script.Path) : Except (Problem × Span) TypeRef :=
  match s.decls.typeId? p.name.name with
  | some _ => .ok (.own p.name.name)
  | none => .error (.unknownType (p.qualifier.map (·.name)) p.name.name, p.span)

/-- The interface of another module. A module that is not in the snapshot is not taken. -/
def external (s : Scope) (q : Script.Ident) : Lookup Interface :=
  match s.snapshot.get? q.name with
  | none => ⟨.error (.unresolvedModule q.name, q.span), []⟩
  | some r => ⟨.ok r.interface, [q.name]⟩

/-- A path in type position. -/
def typeRef (s : Scope) (p : Script.Path) : Lookup TypeRef :=
  match s.outward? p with
  | some q =>
    (s.external q).andThen fun i =>
      match i.type? p.name.name with
      | some _ => .ok (.imported q.name p.name.name)
      | none => .error (.unknownType (some q.name) p.name.name, p.span)
  | none =>
    .inside <|
      match p.qualifier, Kind.ofName? p.name.name with
      | none, some kind => .ok (.builtin kind)
      | _, _ => s.ownType p

/-- A path in an expression. -/
def constTarget (s : Scope) (p : Script.Path) : Lookup ConstTarget :=
  match s.outward? p with
  | some q =>
    (s.external q).andThen fun i =>
      match i.const? p.name.name with
      | some c => .ok (.imported q.name c)
      | none => .error (.unknownConstant (some q.name) p.name.name, p.span)
  | none =>
    .inside <|
      match s.decls.constId? p.name.name with
      | some id => .ok (.own id)
      | none => .error (.unknownConstant (p.qualifier.map (·.name)) p.name.name, p.span)

end Scope

end Linkage
