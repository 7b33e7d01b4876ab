import Linkage.Proofs.Build.Mirrors
import Linkage.Proofs.Evaluation.Naming
import Linkage.Proofs.Host.Truthful

/-!
# Linkage.Proofs.Host.LateBinding

The constants of a debug module, evaluated right after its compile.

Other modules may refer to the name that was compiled. The compile follows such a reference to what
the name stood for until then, evaluation follows it to the new module.

* `Snapshot.Reads` — the constants of other modules that an initializer leads to.
* `Snapshot.Retains` — the constants of the new module that other modules can go on using.
* `debug_meaning` — a constant that leads back to retained constants only has at run time the
  value that the compile found.
* `late_binding_cycle` — a constant that leads back to another one may have none.
-/

namespace Linkage

open Evaluation

/--
Through initializers that are kept, the expression `e` of the module `root` leads to the constant
`x` of the module `m`. What leads back to `root` itself is followed no further.
-/
inductive Snapshot.Reads (s : Snapshot) (root : Interface) : ConstExpr → String → String → Prop where
  | outward {e : ConstExpr} {m x : String} : (some m, x) ∈ e.refs → Reads s root e m x
  | own {e i : ConstExpr} {y : String} {c : ConstDef} {m x : String} :
      (none, y) ∈ e.refs → root.const? y = some c → c.init = .expr i → Reads s root i m x →
      Reads s root e m x
  | beyond {e i : ConstExpr} {m x : String} {c : ConstDef} {q : Option String × String} :
      Reads s root e m x → m ≠ root.name → s.const? m x = some c → c.init = .expr i →
      q ∈ i.refs → Reads s root e (q.1.getD m) q.2

/--
The constant still has the value by which other modules were compiled: the release build stores
what the snapshot had, and the debug build leads back to such constants only.
-/
inductive Snapshot.Retains (s : Snapshot) (debug release : Interface) : String → Prop where
  | intro {x : String} {c : ConstDef} {e : ConstExpr} :
      debug.const? x = some c → c.init = .expr e →
      (∀ y, s.Reads debug e debug.name y → Retains s debug release y) →
      (∀ o v, s.const? debug.name x = some o → s.HasValue debug.name o v →
        release.const? x = some ⟨x, v.kind, .value v⟩) →
      Retains s debug release x

theorem Term.mem_refs_of_dependency {t : Term} {ownName : Nat → String} {j : Nat}
    (h : j ∈ t.dependencies) : (none, ownName j) ∈ (t.toConstExpr ownName).refs := by
  induction t with
  | literal v => cases h
  | own id =>
    obtain rfl := List.mem_singleton.1 h
    exact List.mem_cons_self
  | imported m c span => cases h
  | negate t span ih => exact ih h
  | binary op l r span ihl ihr =>
    rcases List.mem_append.1 h with h | h
    · exact List.mem_append_left _ (ihl h)
    · exact List.mem_append_right _ (ihr h)

/-! ## One compile -/

namespace WellFormed

variable {module : String} {sources : List Source} {snapshot : Snapshot}

/-- A constant has its value if those it leads back to have the values that the snapshot had. -/
theorem hasValue_of_reads (h : WellFormed module sources snapshot) {resolver : Resolver}
    {root : Handle} (ha : resolver.Agrees snapshot root)
    (hself : resolver.get? root.name = some root)
    (hroot : root.interface = (Program.ofSources module sources snapshot).interface .debug)
    {id : Nat} {c : Declared Script.ConstDecl} {t : Term} {v : Value}
    (hc : ConstantAt module sources snapshot id c t v)
    (hback : ∀ x, snapshot.Reads root.interface
      (t.toConstExpr (Scope.ofSources module sources snapshot).constName) root.name x →
      ∀ o w, snapshot.const? root.name x = some o → snapshot.HasValue root.name o w →
        ∃ n, HasValue resolver root n root x w) :
    ∃ n, HasValue resolver root n root c.decl.name.name v := by
  let leads (t : Term) : String → String → Prop := snapshot.Reads root.interface
    (t.toConstExpr (Scope.ofSources module sources snapshot).constName)
  have hm : Mirrors snapshot resolver root (leads t) :=
    { toAgrees := ha
      closed := fun m x d i hn hne hd hi p hp => .beyond hn hne hd hi hp
      inside := fun x o w hn ho hw => ⟨hself, hback x hn o w ho hw⟩ }
  -- The constants below this one, said by what they lead to.
  let below (j : Nat) : Prop := ∀ d u w, ConstantAt module sources snapshot j d u w →
    ∀ m x, leads u m x → leads t m x
  refine h.hasValue_of_constantAt hm hroot below (fun j d u w hj hd => ⟨fun m x hmem => ?_, ?_⟩)
    id c t v ?_ hc
  · exact hj d u w hd m x (.outward hmem)
  · intro k hk d' u' w' hd' m x hr
    have hconst := h.const?_interface .debug hd'
    rw [← hroot, ← Scope.constName_eq hd'.declared] at hconst
    exact hj d u w hd m x (.own (Term.mem_refs_of_dependency hk) hconst rfl hr)
  · intro d u w hd m x hr
    obtain ⟨-, rfl, -⟩ := hc.unique hd
    exact hr

/-- A retained constant has at run time the value that the snapshot had. -/
theorem hasValue_of_retains (h : WellFormed module sources snapshot) {resolver : Resolver}
    {root : Handle} (ha : resolver.Agrees snapshot root)
    (hself : resolver.get? root.name = some root)
    (hroot : root.interface = (Program.ofSources module sources snapshot).interface .debug)
    {x : String} (hx : snapshot.Retains root.interface
      ((Program.ofSources module sources snapshot).interface .release) x) :
    ∀ o w, snapshot.const? root.name x = some o → snapshot.HasValue root.name o w →
      ∃ n, HasValue resolver root n root x w := by
  induction hx with
  | @intro x c e hc he _ hvalue ih =>
    intro o w ho hw
    obtain ⟨id, d, t, v, hd, rfl⟩ :=
      h.exists_of_mem_constants (hroot ▸ Interface.mem_of_const? hc)
    cases he
    obtain rfl : d.decl.name.name = x := Interface.name_of_const? hc
    have hrelease := hvalue o w ho hw
    rw [h.const?_interface .release hd] at hrelease
    obtain rfl : v = w := Init.value.inj (congrArg ConstDef.init (Option.some_inj.1 hrelease))
    exact h.hasValue_of_reads ha hself hroot hd ih

end WellFormed

/-! ## Histories -/

theorem Registry.entry?_of_snapshot {r : Registry} (hr : r.All Entry.Truthful) {m : String}
    {reference : Reference} (h : r.snapshot.get? m = some reference) :
    ∃ e, r.entry? m = some e ∧ e.reference = some reference := by
  obtain ⟨name, e, he, href⟩ := mem_snapshot (Snapshot.mem_of_get? h)
  have hentry := hr name e he
  have hname : name = m := by
    rw [← Snapshot.name_of_get? h, Reference.name, hentry.reference reference href]
    exact hentry.name.symm
  exact ⟨e, hname ▸ he, href⟩

theorem Host.Compiles.interface_eq {host host' : Host} {forceDebug : Bool} {request : Request}
    {h : Handle} (hc : host.Compiles forceDebug request h host')
    (hdebug : (request.debug || forceDebug) = true)
    (hfits : ((Program.ofSources request.module request.sources
      host.linker.registry.snapshot).interface .debug).Fits) :
    h.interface = (Program.ofSources request.module request.sources
      host.linker.registry.snapshot).interface .debug := by
  have hinterface := hc.interface
  rw [hdebug] at hinterface
  exact hinterface hfits

theorem Host.Compiles.agrees {host host' : Host} (ht : host.Truthful) {forceDebug : Bool}
    {request : Request} {h : Handle} (hc : host.Compiles forceDebug request h host')
    (hname : h.name = request.module) :
    host'.linker.registry.resolver.Agrees host.linker.registry.snapshot h where
  handles := by
    intro m r hm hr
    obtain ⟨e, he, href⟩ := Registry.entry?_of_snapshot ht.registry hr
    refine ⟨e.handle, ?_, ((ht.registry m e he).reference r href).symm⟩
    rw [Registry.get?_resolver, hc.resolve?_eq, if_neg (hname ▸ hm), Registry.resolve?, he]
    rfl
  shallow := by
    intro m r hr
    obtain ⟨e, he, href⟩ := Registry.entry?_of_snapshot ht.registry hr
    exact (ht.registry m e he).shallow r href

/--
After any steady history: a module that is compiled in debug mode keeps the initializers, and a
constant that leads back to retained constants only evaluates, with the linker as resolver, to the
value that a release build of the same request stores.
-/
theorem debug_meaning (config : Config) (history : List Event)
    (hsteady : (Host.fresh config).Steady history) (request : Request) {result : BuildResult}
    {h : Handle} {host' : Host} :
    let host := (Host.fresh config).run history
    let snapshot := host.prepare.2.linker.registry.snapshot
    let p := Program.ofSources request.module request.sources snapshot
    host.compile request = (.ok result, host') → result.module = some h →
      (request.debug || host.linker.config.forceDebug) = true → (p.interface .debug).Fits →
      h.interface = p.interface .debug ∧
        ∃ o, (compile .release request.module request.sources snapshot).output = some o ∧
          o.image = (p.interface .release).encode ∧
          ∀ c ∈ h.interface.constants, ∃ e, c.init = .expr e ∧
            ((∀ x, snapshot.Reads h.interface e h.name x →
                snapshot.Retains h.interface (p.interface .release) x) →
              ∃ v, h.evaluate c.name host'.linker.registry.resolver = .ok v ∧
                (p.interface .release).const? c.name = some ⟨c.name, v.kind, .value v⟩) := by
  intro host snapshot p hcompile hmodule hdebug hfits
  have htruth : host.prepare.2.Truthful := ((Host.Truthful.fresh config).run hsteady).prepare
  have hc := Host.compile_ok hcompile hmodule
  have hw := hc.wellFormed
  have hroot := hc.interface_eq hdebug hfits
  have hrelease : (compile .release request.module request.sources snapshot).output.isSome = true :=
    isSome_output.2 (Program.noErrors_ofSources.2 hw)
  obtain ⟨o', ho'⟩ := Option.isSome_iff_exists.1 hrelease
  obtain ⟨-, himage'⟩ := compile_output ho'
  refine ⟨hroot, o', ho', himage', fun c hmem => ?_⟩
  obtain ⟨id, d, t, v, hd, rfl⟩ := hw.exists_of_mem_constants (hroot ▸ hmem)
  refine ⟨_, rfl, fun hback => ⟨v, ?_, hw.const?_interface .release hd⟩⟩
  have hname : h.name = request.module := by
    rw [Handle.name, hroot]
    exact congrArg Scope.module hw.scope_eq
  have ha := hc.agrees htruth hname
  have hself : host'.linker.registry.resolver.get? h.name = some h := by
    rw [Registry.get?_resolver, hc.resolve?_eq, if_pos hname]
  obtain ⟨n, hn⟩ := hw.hasValue_of_reads ha hself hroot hd fun x hx =>
    hw.hasValue_of_retains ha hself hroot (hback x hx)
  exact Handle.evaluate_of_hasValue hn

/-! ### There and back -/

def fromB : List Event :=
  [.compile ⟨"B", [⟨"const X = 1;", none⟩], true⟩, .compile ⟨"A", [⟨"const Y = B.X;", none⟩], true⟩]

def throughB : Host := (Host.fresh .default).run fromB

def oldB : Interface := ⟨"B", .debug, [], [], [⟨"X", .int, .expr (.literal (.int 1))⟩]⟩

def between : Interface := ⟨"A", .debug, ["B"], [], [⟨"Y", .int, .expr (.ref (some "B") "X")⟩]⟩

def beforeRecompile : Snapshot := ⟨[⟨between, .memory⟩, ⟨oldB, .memory⟩]⟩

theorem steady_fromB : (Host.fresh .default).Steady fromB := by
  have hnames : Text.Fits "B" ∧ Text.Fits "A" := by decide +kernel
  exact ⟨hnames.1, hnames.2, trivial⟩

theorem throughB_holds :
    throughB.linker.initialized = true ∧
      throughB.linker.registry.entries.entries.map
          (fun e => (e.1, e.2.reference, e.2.handle.interface)) =
        [("A", some ⟨between, .memory⟩, between), ("B", some ⟨oldB, .memory⟩, oldB)] := by
  decide +kernel

theorem entries_throughB :
    ∃ a b, throughB.linker.registry.entries.entries =
      [("A", ⟨some ⟨between, .memory⟩, a⟩), ("B", ⟨some ⟨oldB, .memory⟩, b⟩)] ∧
        a.interface = between := by
  obtain ⟨⟨_, r, a⟩, _, hsplit, ha, hrest⟩ := List.map_eq_cons_iff.1 throughB_holds.2
  obtain ⟨⟨_, s, b⟩, hlast, hb⟩ := List.map_eq_singleton_iff.1 hrest
  simp only [Prod.mk.injEq] at ha hb
  obtain ⟨rfl, rfl, ha⟩ := ha
  obtain ⟨rfl, rfl, -⟩ := hb
  exact ⟨a, b, by rw [hsplit, hlast], ha⟩

theorem prepare_throughB : throughB.prepare = (.ok (), throughB) := by
  simp only [Host.prepare, throughB_holds.1, if_true]

theorem snapshot_throughB : throughB.linker.registry.snapshot = beforeRecompile := by
  obtain ⟨a, b, hentries, -⟩ := entries_throughB
  have hnames : throughB.linker.registry.names = ["A", "B"] := by
    rw [Registry.names, Store.names, hentries]
    exact List.mergeSort_of_pairwise (l := ["A", "B"]) (by decide)
  rw [Registry.snapshot, hnames]
  simp only [List.filterMap_cons, List.filterMap_nil, Registry.reference?, Registry.entry?,
    Store.get?, hentries]
  rfl

/-! ### A constant that stays what it was -/

/-- The new `B.X` is computed in another way, and `B.Z` leads back to it through `A.Y`. -/
def keepingX : Request := ⟨"B", [⟨"const X = 2 - 1; const Z = A.Y + X;", none⟩], true⟩

def keptX : ConstExpr := .binary .sub (.literal (.int 2)) (.literal (.int 1))

def keptZ : ConstExpr := .binary .add (.ref (some "A") "Y") (.ref none "X")

def keptB : Interface :=
  ⟨"B", .debug, ["A"], [], [⟨"X", .int, .expr keptX⟩, ⟨"Z", .int, .expr keptZ⟩]⟩

/-- What a release build of the same request stores. -/
def storedB : Interface :=
  ⟨"B", .release, ["A"], [], [⟨"X", .int, .value (.int 1)⟩, ⟨"Z", .int, .value (.int 2)⟩]⟩

theorem not_reads_of_refs {s : Snapshot} {root : Interface} {e : ConstExpr} {m x : String}
    (he : e.refs = []) : ¬ s.Reads root e m x := by
  intro hr
  induction hr with
  | outward hmem =>
    rw [he] at hmem
    cases hmem
  | own hmem =>
    rw [he] at hmem
    cases hmem
  | beyond _ _ _ _ _ ih => exact ih he

/-- It leads to `A.Y`, from there to `B.X`, and no further. -/
theorem reads_keptZ {e : ConstExpr} {m x : String} (hr : beforeRecompile.Reads keptB e m x) :
    e = keptZ → (m = "A" ∧ x = "Y") ∨ (m = "B" ∧ x = "X") := by
  intro he
  induction hr with
  | outward hmem =>
    subst he
    cases hmem with
    | head => exact .inl ⟨rfl, rfl⟩
    | tail _ hmem => cases List.mem_singleton.1 hmem
  | own hmem hc hi hr =>
    subst he
    cases hmem with
    | tail _ hmem =>
      cases List.mem_singleton.1 hmem
      have hx : keptB.const? "X" = some ⟨"X", .int, .expr keptX⟩ := rfl
      cases hx.symm.trans hc
      cases hi
      exact absurd hr (not_reads_of_refs rfl)
  | beyond _ hne hc hi hq ih =>
    obtain ⟨rfl, rfl⟩ | ⟨rfl, rfl⟩ := ih he
    · have hy : beforeRecompile.const? "A" "Y" = some ⟨"Y", .int, .expr (.ref (some "B") "X")⟩ :=
        rfl
      cases hy.symm.trans hc
      cases hi
      cases List.mem_singleton.1 hq
      exact .inr ⟨rfl, rfl⟩
    · exact absurd rfl hne

theorem reads_keptX : beforeRecompile.Reads keptB keptZ "B" "X" :=
  .beyond (q := (some "B", "X")) (.outward List.mem_cons_self) (by decide)
    (show beforeRecompile.const? "A" "Y" = some ⟨"Y", .int, .expr (.ref (some "B") "X")⟩ from rfl)
    rfl List.mem_cons_self

theorem retains_keptX : beforeRecompile.Retains keptB storedB "X" := by
  have hnew : keptB.const? "X" = some ⟨"X", .int, .expr keptX⟩ := rfl
  refine .intro hnew rfl (fun y hr => absurd hr (not_reads_of_refs rfl)) fun o v ho hv => ?_
  have hold : beforeRecompile.const? "B" "X" = some ⟨"X", .int, .expr (.literal (.int 1))⟩ := rfl
  cases hold.symm.trans ho
  have hv' : beforeRecompile.Derives Snapshot.externalLevels "B" (.literal (.int 1)) v := hv
  cases hv'
  rfl

theorem compiled?_keepingX : (throughB.compiled? keepingX).isSome = true := by
  unfold Host.compiled? Host.compile
  rw [prepare_throughB]
  simp only [Host.build, Host.registry, snapshot_throughB]
  decide +kernel

theorem debug_meaning_retained :
    let snapshot := throughB.prepare.2.linker.registry.snapshot
    (Host.fresh .default).Steady fromB ∧ ∃ result h host',
      throughB.compile keepingX = (.ok result, host') ∧ result.module = some h ∧
        snapshot.Reads h.interface keptZ h.name "X" ∧
        h.evaluate "Z" host'.linker.registry.resolver = .ok (.int 2) := by
  have hsnapshot : throughB.prepare.2.linker.registry.snapshot = beforeRecompile := by
    rw [prepare_throughB]
    exact snapshot_throughB
  rw [hsnapshot]
  let p := Program.ofSources keepingX.module keepingX.sources beforeRecompile
  have hdebug : p.interface .debug = keptB := by decide +kernel
  have hrelease : p.interface .release = storedB := by decide +kernel
  have hfits : (p.interface .debug).Fits := by
    rw [hdebug]
    decide +kernel
  have hz : storedB.const? "Z" = some ⟨"Z", .int, .value (.int 2)⟩ := rfl
  obtain ⟨h, hh⟩ := Option.isSome_iff_exists.1 compiled?_keepingX
  obtain ⟨result, hcompile, hmodule⟩ := Host.compile_of_compiled? hh
  have hbuild := debug_meaning .default fromB steady_fromB keepingX hcompile hmodule rfl
  rw [show ((Host.fresh .default).run fromB).prepare.2.linker.registry.snapshot = beforeRecompile
    from hsnapshot] at hbuild
  obtain ⟨hroot, o, -, -, hconstants⟩ := hbuild hfits
  replace hroot : h.interface = keptB := hroot.trans hdebug
  have hname : h.name = "B" := congrArg Interface.name hroot
  rw [hroot, hname, hrelease] at hconstants
  obtain ⟨e, he, hmeaning⟩ := hconstants ⟨"Z", .int, .expr keptZ⟩
    (List.mem_cons_of_mem _ List.mem_cons_self)
  cases he
  obtain ⟨v, hv, hstored⟩ := hmeaning fun x hr => by
    obtain ⟨hm, -⟩ | ⟨-, rfl⟩ := reads_keptZ hr rfl
    · exact absurd hm (by decide)
    · exact retains_keptX
  have hsame := Option.some_inj.1 (hz.symm.trans hstored)
  obtain rfl : Value.int 2 = v := Init.value.inj (congrArg ConstDef.init hsame)
  refine ⟨steady_fromB, result, h, _, hcompile, hmodule, ?_, hv⟩
  rw [hroot, hname]
  exact reads_keptX

/-! ### And one that does not -/

/-- The new `B.X` refers to what refers to it. At compile time that is still the old one. -/
def backToB : Request := ⟨"B", [⟨"const X = A.Y;", none⟩], true⟩

def newB : Interface := ⟨"B", .debug, ["A"], [], [⟨"X", .int, .expr (.ref (some "A") "Y")⟩]⟩

theorem compiled?_backToB : (throughB.compiled? backToB).isSome = true := by
  unfold Host.compiled? Host.compile
  rw [prepare_throughB]
  simp only [Host.build, Host.registry, snapshot_throughB]
  decide +kernel

/-- Each name stands for the module that was compiled under it last. -/
theorem resolver_backToB {forceDebug : Bool} {h : Handle} {host' : Host}
    (hc : throughB.Compiles forceDebug backToB h host') :
    ∃ a, a.interface = between ∧ host'.linker.registry.resolver = ⟨[("A", a), ("B", h)]⟩ := by
  obtain ⟨a, b, hentries, hinterface⟩ := entries_throughB
  have ha : throughB.linker.registry.resolve? "A" = some a := by
    simp only [Registry.resolve?, Registry.entry?, Store.get?, hentries]
    rfl
  have hA : host'.linker.registry.resolve? "A" = some a := (hc.resolve?_eq "A").trans ha
  have hB : host'.linker.registry.resolve? "B" = some h := hc.resolve?_eq "B"
  have hrest : (throughB.linker.registry.entries.entries.filter (·.1 != "B")).map Prod.fst =
      ["A"] := by
    rw [hentries]
    rfl
  have hnames : host'.linker.registry.names = ["A", "B"] := by
    rw [hc.registry]
    show ("B" :: (throughB.linker.registry.entries.entries.filter (·.1 != "B")).map
      Prod.fst).mergeSort _ = _
    rw [hrest]
    simp [List.mergeSort, List.MergeSort.Internal.splitInTwo]
  refine ⟨a, hinterface, ?_⟩
  simp only [Registry.resolver, hnames, List.filterMap_cons, hA, hB, Option.map_some,
    List.filterMap_nil]

theorem evaluate_newB {a b : Handle} (ha : a.interface = between) (hb : b.interface = newB) :
    b.evaluate "X" ⟨[("A", a), ("B", b)]⟩ = .error (.cycle "B" "X") := by
  obtain ⟨i, interface, symbols, location, dynamic⟩ := a
  obtain ⟨j, interface', symbols', location', dynamic'⟩ := b
  obtain rfl : interface = between := ha
  obtain rfl : interface' = newB := hb
  rfl

theorem late_binding_cycle :
    let snapshot := throughB.prepare.2.linker.registry.snapshot
    let p := Program.ofSources "B" backToB.sources snapshot
    (Host.fresh .default).Steady fromB ∧ backToB.debug = true ∧ (p.interface .debug).Fits ∧
      ∃ result h host', throughB.compile backToB = (.ok result, host') ∧ result.module = some h ∧
        (⟨"X", .int, .expr (.ref (some "A") "Y")⟩ : ConstDef) ∈ h.interface.constants ∧
        (compile .release "B" backToB.sources snapshot).output.map (·.image) =
          some (p.interface .release).encode ∧
        (p.interface .release).const? "X" = some ⟨"X", .int, .value (.int 1)⟩ ∧
        h.evaluate "X" host'.linker.registry.resolver = .error (.cycle "B" "X") := by
  rw [prepare_throughB]
  dsimp only
  rw [snapshot_throughB]
  obtain ⟨h, hh⟩ := Option.isSome_iff_exists.1 compiled?_backToB
  obtain ⟨result, hcompile, hmodule⟩ := Host.compile_of_compiled? hh
  have hc := Host.compile_ok hcompile hmodule
  rw [prepare_throughB] at hc
  have hfits : ((Program.ofSources "B" backToB.sources beforeRecompile).interface .debug).Fits := by
    decide +kernel
  have hroot : h.interface = newB := by
    have heq := hc.interface_eq rfl (by rw [snapshot_throughB]; exact hfits)
    rw [snapshot_throughB] at heq
    rw [heq]
    decide +kernel
  obtain ⟨a, hbetween, hresolver⟩ := resolver_backToB hc
  refine ⟨steady_fromB, rfl, hfits, result, h, _, hcompile, hmodule, ?_, ?_, ?_, ?_⟩
  · rw [hroot]
    exact List.mem_cons_self
  · decide +kernel
  · decide +kernel
  · rw [hresolver]
    exact evaluate_newB hbetween hroot

end Linkage
