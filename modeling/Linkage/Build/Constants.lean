import Linkage.Build.External
import Linkage.Build.Scope
import Linkage.Graph

/-!
# Linkage.Build.Constants

The constants of a module with their paths resolved and their values computed.

* Every path in an initializer is looked at, whatever is wrong with the others.
* Constants may not depend on themselves; each cycle is reported once, at its first constant.
* A constant is evaluated after those it depends on. What fails is reported at the operator or the
  path that fails, and a constant that merely depends on a failed one stays silent.
-/

namespace Linkage

/-- An initializer with its paths resolved, and the spans that evaluation errors point at. -/
inductive Term where
  | literal (value : Value)
  | own (id : Nat)
  | imported (module : String) (constant : ConstDef) (span : Span)
  | negate (operand : Term) (span : Span)
  | binary (op : Operator) (lhs rhs : Term) (span : Span)

namespace Term

/-- The constants of the same module that the term refers to. -/
def dependencies : Term → List Nat
  | .literal _ => []
  | .own id => [id]
  | .imported _ _ _ => []
  | .negate t _ => t.dependencies
  | .binary _ l r _ => l.dependencies ++ r.dependencies

/-- The expression that a debug image stores. -/
def toConstExpr (ownName : Nat → String) : Term → ConstExpr
  | .literal v => .literal v
  | .own id => .ref none (ownName id)
  | .imported m c _ => .ref (some m) c.name
  | .negate t _ => .negate (t.toConstExpr ownName)
  | .binary op l r _ => .binary op (l.toConstExpr ownName) (r.toConstExpr ownName)

def settle (unit : Nat) (span : Span) : Except ArithmeticError Value →
    Option Value × List Diagnostic
  | .ok v => (some v, [])
  | .error e => (none, [(Problem.arithmetic e).located unit span])

/-- The value of a term over the values of the module's own constants that are known. -/
def eval (snapshot : Snapshot) (values : Nat → Option Value) (unit : Nat) :
    Term → Option Value × List Diagnostic
  | .literal v => (some v, [])
  | .own id => (values id, [])
  | .imported m c span =>
    match snapshot.constValue? m c with
    | some v => (some v, [])
    | none => (none, [(Problem.notEvaluable m c.name).located unit span])
  | .negate t span =>
    match t.eval snapshot values unit with
    | (none, ds) => (none, ds)
    | (some v, ds) =>
      let (result, more) := settle unit span v.negate
      (result, ds ++ more)
  | .binary op l r span =>
    let (left, ds) := l.eval snapshot values unit
    let (right, es) := r.eval snapshot values unit
    match left, right with
    | some v, some w =>
      let (result, more) := settle unit span (v.apply op w)
      (result, ds ++ es ++ more)
    | _, _ => (none, ds ++ es)

end Term

structure ResolvedConst where
  /-- The initializer, if all its paths lead somewhere. -/
  term : Option Term
  value : Option Value

namespace Scope

/-! ## Paths -/

def resolveExpr (s : Scope) (unit : Nat) : Script.Expr → Pass (Option Term)
  | .literal v _ => ⟨some (.literal v), [], []⟩
  | .path p =>
    match (s.constTarget p).found with
    | .ok (.own id) => ⟨some (.own id), [], (s.constTarget p).modules⟩
    | .ok (.imported m c) => ⟨some (.imported m c p.span), [], (s.constTarget p).modules⟩
    | .error (problem, span) => ⟨none, [problem.located unit span], (s.constTarget p).modules⟩
  | .negate e span =>
    let operand := s.resolveExpr unit e
    { operand with result := operand.result.map (.negate · span) }
  | .binary op l r span =>
    let left := s.resolveExpr unit l
    let right := s.resolveExpr unit r
    let diagnostics := left.diagnostics ++ right.diagnostics
    let modules := left.modules ++ right.modules
    match left.result, right.result with
    | some t, some u => ⟨some (.binary op t u span), diagnostics, modules⟩
    | _, _ => ⟨none, diagnostics, modules⟩

/-! ## Cycles -/

def constName (s : Scope) (id : Nat) : String :=
  match s.decls.constants[id]? with
  | some c => c.decl.name.name
  | none => ""

/-- An edge from each constant to each constant of the module in its initializer. -/
def constGraph (terms : List (Option Term)) : Graph :=
  ⟨terms.length, terms.zipIdx.flatMap fun (t, id) =>
    match t with
    | some t => t.dependencies.map fun dependency => (id, dependency)
    | none => []⟩

def reportConstCycle (s : Scope) (cycle : List Nat) : List Diagnostic :=
  match cycle with
  | [] => []
  | first :: _ =>
    match s.decls.constants[first]? with
    | none => []
    | some c => [(Problem.constantCycle (cycle.map s.constName)).located c.unit c.decl.name.span]

/-! ## Values -/

/-- Evaluates one constant unless it lies on a cycle or one of its paths leads nowhere. -/
def evalConst (s : Scope) (terms : Array (Option Term)) (cyclic : List Nat)
    (state : Array (Option Value) × List Diagnostic) (id : Nat) :
    Array (Option Value) × List Diagnostic :=
  match terms[id]?.join, s.decls.constants[id]? with
  | some t, some c =>
    if cyclic.contains id then state
    else
      let (value, ds) := t.eval s.snapshot (fun i => state.1[i]?.join) c.unit
      (state.1.setIfInBounds id value, state.2 ++ ds)
  | _, _ => state

/-- Evaluates the constants in this order. -/
def evalConsts (s : Scope) (terms : List (Option Term)) (cyclic order : List Nat) :
    Array (Option Value) × List Diagnostic :=
  order.foldl (s.evalConst terms.toArray cyclic) (Array.replicate terms.length none, [])

/--
The constants in declaration order with everything that is wrong with them. They are evaluated in
the order that the graph of their dependencies is given.
-/
def resolveConstsBy (order : Graph → List Nat) (s : Scope) : Pass (List ResolvedConst) :=
  let passes := s.decls.constants.map fun c => s.resolveExpr c.unit c.decl.value
  let terms := passes.map (·.result)
  let graph := constGraph terms
  let cycles := graph.cycles
  let (values, ds) := s.evalConsts terms cycles.flatten (order graph)
  { result := List.zipWith ResolvedConst.mk terms values.toList
    diagnostics := passes.flatMap (·.diagnostics) ++ cycles.flatMap s.reportConstCycle ++ ds
    modules := passes.flatMap (·.modules) }

def resolveConsts (s : Scope) : Pass (List ResolvedConst) := s.resolveConstsBy Graph.dependencyOrder

end Scope

end Linkage
