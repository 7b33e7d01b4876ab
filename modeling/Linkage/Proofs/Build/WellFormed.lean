import Linkage.Build.Source
import Linkage.Proofs.Build.External
import Linkage.Script.Parse
import Mathlib.Logic.Relation

/-!
# Linkage.Proofs.Build.WellFormed

Which programs are well formed, said without the passes that find it out.

* `Contents` — the declarations of a module's sources with what they can refer to.
* `NamesType`, `NamesOwn`, `NamesImported` — what a path leads to.
* `Denotes e v` — the expression `e` has the value `v`, as a derivation.
* `Contents.Sound` — the conditions on declarations.
* `WellFormed` — the sources can be read, and what they declare is sound.
-/

namespace Linkage

/-! ## Declarations -/

/-- The declaration as a type declaration, if it is one. -/
def Script.Item.type? : Script.Item → Option Script.TypeDecl
  | .type t => some t
  | .const _ => none

def Script.Item.const? : Script.Item → Option Script.ConstDecl
  | .type _ => none
  | .const c => some c

/-- What the units that are not blank declare, in order. -/
def Source.items (sources : List Source) : List Script.Item :=
  (sources.filter fun s => !s.isBlank).flatMap fun s => (Script.parse s.text).1.items

structure Contents where
  module : String
  snapshot : Snapshot
  types : List Script.TypeDecl
  consts : List Script.ConstDecl

namespace Contents

def ofSources (module : String) (sources : List Source) (snapshot : Snapshot) : Contents :=
  { module := module
    snapshot := snapshot
    types := (Source.items sources).filterMap Script.Item.type?
    consts := (Source.items sources).filterMap Script.Item.const? }

/-! ## Paths -/

inductive NamesType (d : Contents) : Script.Path → TypeRef → Prop where
  | builtin {n : Script.Ident} {k : Kind} :
      Kind.ofName? n.name = some k → NamesType d ⟨none, n⟩ (.builtin k)
  | own {n : Script.Ident} {t : Script.TypeDecl} :
      t ∈ d.types → t.name.name = n.name → NamesType d ⟨none, n⟩ (.own n.name)
  | self {q n : Script.Ident} {t : Script.TypeDecl} :
      q.name = d.module → t ∈ d.types → t.name.name = n.name →
      NamesType d ⟨some q, n⟩ (.own n.name)
  | imported {q n : Script.Ident} {t : TypeDef} :
      q.name ≠ d.module → d.snapshot.type? q.name n.name = some t →
      NamesType d ⟨some q, n⟩ (.imported q.name n.name)

/-- The path has no qualifier but perhaps the name of the module itself. -/
def Local (d : Contents) (p : Script.Path) : Prop := ∀ q, p.qualifier = some q → q.name = d.module

structure NamesOwn (d : Contents) (p : Script.Path) (c : Script.ConstDecl) : Prop where
  isLocal : d.Local p
  declared : c ∈ d.consts
  name : c.name.name = p.name.name

structure NamesImported (d : Contents) (p : Script.Path) (m : String) (c : ConstDef) : Prop where
  outward : m ≠ d.module
  qualifier : ∃ q, p.qualifier = some q ∧ q.name = m
  exported : d.snapshot.const? m p.name.name = some c

/-! ## Dependencies -/

/-- The type `n` extends the type `b` of the same module. -/
def Extends (d : Contents) (n b : String) : Prop :=
  ∃ t ∈ d.types, t.name.name = n ∧ ∃ p, t.base = some p ∧ d.NamesType p (.own b)

/-- The initializer of the constant `n` has a path to the constant `m` of the same module. -/
def DependsOn (d : Contents) (n m : String) : Prop :=
  ∃ c ∈ d.consts, c.name.name = n ∧ ∃ p ∈ c.value.paths, ∃ c', d.NamesOwn p c' ∧ c'.name.name = m

/-- Neither builtin nor sealed. -/
def Extensible (d : Contents) : TypeRef → Prop
  | .builtin _ => False
  | .own n => ∀ t ∈ d.types, t.name.name = n → t.modifiers.isSealed = false
  | .imported m n => ∀ t, d.snapshot.type? m n = some t → t.modifiers.isSealed = false

/-! ## Values -/

inductive Denotes (d : Contents) : Script.Expr → Value → Prop where
  | literal {v : Value} {span : Span} : Denotes d (.literal v span) v
  | own {p : Script.Path} {c : Script.ConstDecl} {v : Value} :
      d.NamesOwn p c → Denotes d c.value v → Denotes d (.path p) v
  | imported {p : Script.Path} {m : String} {c : ConstDef} {v : Value} :
      d.NamesImported p m c → d.snapshot.HasValue m c v → Denotes d (.path p) v
  | negate {e : Script.Expr} {v w : Value} {span : Span} :
      Denotes d e v → v.negate = .ok w → Denotes d (.negate e span) w
  | binary {op : Operator} {l r : Script.Expr} {v w x : Value} {span : Span} :
      Denotes d l v → Denotes d r w → v.apply op w = .ok x → Denotes d (.binary op l r span) x

/-! ## Soundness -/

/-- The base, if there is one, can be found and can be extended. -/
def BaseSound (d : Contents) (t : Script.TypeDecl) : Prop :=
  ∀ p, t.base = some p → ∃ r, d.NamesType p r ∧ d.Extensible r

/-- No two fields share a name, and the type of every field can be found. -/
def FieldsSound (d : Contents) (t : Script.TypeDecl) : Prop :=
  (t.fields.map (·.name.name)).Nodup ∧ ∀ f ∈ t.fields, ∃ r, d.NamesType f.type r

/-- All names of declarations are their own. -/
structure NamesSound (d : Contents) : Prop where
  types : (d.types.map (·.name.name)).Nodup
  notBuiltin : ∀ t ∈ d.types, Kind.ofName? t.name.name = none
  consts : (d.consts.map (·.name.name)).Nodup

structure Sound (d : Contents) : Prop where
  names : d.NamesSound
  modifiers : ∀ t ∈ d.types, ¬ (t.modifiers.isSealed = true ∧ t.modifiers.isAbstract = true)
  bases : ∀ t ∈ d.types, d.BaseSound t
  fields : ∀ t ∈ d.types, d.FieldsSound t
  noBaseCycle : ∀ n, ¬ Relation.TransGen d.Extends n n
  paths : ∀ c ∈ d.consts, ∀ p ∈ c.value.paths, (∃ c', d.NamesOwn p c') ∨ ∃ m c', d.NamesImported p m c'
  noConstCycle : ∀ n, ¬ Relation.TransGen d.DependsOn n n
  values : ∀ c ∈ d.consts, ∃ v, d.Denotes c.value v

end Contents

structure WellFormed (module : String) (sources : List Source) (snapshot : Snapshot) : Prop where
  readable : ∀ s ∈ sources, s.isBlank = false → (Script.parse s.text).2 = []
  sound : (Contents.ofSources module sources snapshot).Sound

end Linkage
