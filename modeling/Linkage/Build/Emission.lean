import Linkage.Build.Constants
import Linkage.Build.Source
import Linkage.Build.Types
import Linkage.Symbols

/-!
# Linkage.Build.Emission

Compiling a module: source units and a snapshot go in, diagnostics and, unless one of them is an
error, an image with or without debug symbols come out.

* `Program.ofSources` — all declarations with what is wrong with them.
* `Program.interface`, `Program.symbols` — what an image and its debug symbols say.
* `compile` — the whole way.

Diagnostics of the text come first, in the order of the units and of the text. The others follow
in the order of the places they are about.
-/

namespace Linkage

/-! ## Order of diagnostics -/

/-- Places in unit, line and column order, and what has no place after them. -/
def Diagnostic.notAfter (a b : Diagnostic) : Bool :=
  match a.location, b.location with
  | none, some _ => false
  | _, none => true
  | some l, some m =>
    l.unit < m.unit || (l.unit == m.unit && l.span.startsBefore m.span)

/-! ## Programs -/

structure Program where
  scope : Scope
  types : List ResolvedType
  constants : List ResolvedConst
  /-- The other modules that lookups took from the snapshot, in the order of the lookups. -/
  modules : List String
  diagnostics : List Diagnostic

namespace Program

def ofSources (module : String) (sources : List Source) (snapshot : Snapshot) : Program :=
  let (scripts, textual) := readUnits sources.zipIdx
  let (decls, registration) := Declarations.ofUnits scripts
  let scope : Scope := ⟨module, snapshot, decls⟩
  let types := scope.resolveTypes
  let constants := scope.resolveConsts
  let semantic := (registration ++ types.diagnostics ++ constants.diagnostics).mergeSort
    Diagnostic.notAfter
  { scope := scope
    types := types.result
    constants := constants.result
    modules := types.modules ++ constants.modules
    diagnostics := textual ++ semantic }

def hasErrors (p : Program) : Bool := p.diagnostics.any Diagnostic.isError

/-- A name into a strictly ascending list of names. -/
def insertName (name : String) : List String → List String
  | [] => [name]
  | x :: xs =>
    if name < x then name :: x :: xs
    else if name = x then x :: xs
    else x :: insertName name xs

/-- The other modules that lookups took, each one once and in ascending order. -/
def references (p : Program) : List String :=
  p.modules.foldl (fun names n => insertName n names) []

def typeDef (p : Program) (declared : Declared Script.TypeDecl) (t : ResolvedType) : TypeDef :=
  .make p.scope.module declared.decl.name.name declared.decl.modifiers t.base
    (t.fields.map fun f => ⟨f.decl.name.name, f.type⟩)

/-- A debug build keeps the initializer and a release build the value. -/
def constDef? (p : Program) (optimization : Optimization)
    (declared : Declared Script.ConstDecl) (c : ResolvedConst) : Option ConstDef :=
  match c.value with
  | none => none
  | some v =>
    let init := match optimization, c.term with
      | .debug, some t => .expr (t.toConstExpr p.scope.constName)
      | _, _ => .value v
    some ⟨declared.decl.name.name, v.kind, init⟩

def interface (p : Program) (optimization : Optimization) : Interface :=
  { name := p.scope.module
    optimization := optimization
    references := p.references
    types := List.zipWith p.typeDef p.scope.decls.types p.types
    constants := (p.scope.decls.constants.zip p.constants).filterMap fun (declared, c) =>
      p.constDef? optimization declared c }

/-! ## Debug symbols -/

def typeEntries (t : Declared Script.TypeDecl) : List Symbols.Entry :=
  let name := t.decl.name
  ⟨.type, name.name, UInt32.ofNat t.unit, name.span⟩ :: t.decl.fields.map fun f =>
    ⟨.field, name.name ++ "." ++ f.name.name, UInt32.ofNat t.unit, f.name.span⟩

def constEntry (c : Declared Script.ConstDecl) : Symbols.Entry :=
  ⟨.constant, c.decl.name.name, UInt32.ofNat c.unit, c.decl.name.span⟩

def symbols (p : Program) (origins : List String) : Symbols :=
  ⟨p.scope.module, origins,
    p.scope.decls.types.flatMap typeEntries ++ p.scope.decls.constants.map constEntry⟩

end Program

/-! ## Compiling -/

structure Options where
  optimization : Optimization
  emitSymbols : Bool
  deriving DecidableEq

namespace Options

def debug : Options := ⟨.debug, true⟩

def release : Options := ⟨.release, false⟩

def forMode (isDebug : Bool) : Options := if isDebug then debug else release

end Options

structure Output where
  image : Bytes
  symbols : Option Bytes
  deriving DecidableEq

structure Emission where
  diagnostics : List Diagnostic
  /-- There is an output exactly if no diagnostic is an error. -/
  output : Option Output
  deriving DecidableEq

def compile (options : Options) (module : String) (sources : List Source) (snapshot : Snapshot) :
    Emission :=
  let program := Program.ofSources module sources snapshot
  if program.hasErrors then ⟨program.diagnostics, none⟩
  else
    let symbols := if options.emitSymbols
      then some (program.symbols (origins sources)).encode else none
    ⟨program.diagnostics, some ⟨(program.interface options.optimization).encode, symbols⟩⟩

end Linkage
