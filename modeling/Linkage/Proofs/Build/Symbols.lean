import Linkage.Proofs.Build.Faithful
import Linkage.Proofs.Qualified
import Linkage.Proofs.Script.Derivation
import Linkage.Proofs.Symbols
import Linkage.Proofs.Token.Places

/-!
# Linkage.Proofs.Build.Symbols

`compile_symbols`: debug symbols name every unit and every member of the module, and each entry
points at the name in the text that the member was declared by.

* `Members.ofScripts` — the members that scripts declare, in the order of debug symbols.
* `token_of_parse?` — the names of a declaration are identifiers in the text.
* `Symbols.Entry.PointsInto` — what an entry points at is the last segment of its name.
-/

namespace Linkage

/-! ## Members -/

namespace Symbols

/-- What an entry says apart from the place: its kind, its qualified name and its unit. -/
structure Member where
  kind : EntryKind
  name : String
  unit : Nat
  deriving DecidableEq

def Entry.member (e : Entry) : Member := ⟨e.kind, e.name, e.unit.toNat⟩

namespace Member

def ofType (unit : Nat) (t : Script.TypeDecl) : List Member :=
  ⟨.type, t.name.name, unit⟩ ::
    t.fields.map fun f => ⟨.field, t.name.name ++ "." ++ f.name.name, unit⟩

def ofConst (unit : Nat) (c : Script.ConstDecl) : Member := ⟨.constant, c.name.name, unit⟩

/-- All types with their fields after them, and then all constants; both in declaration order. -/
def ofScripts (scripts : List Script) : List Member :=
  (scripts.zipIdx.flatMap fun (script, unit) =>
    (script.items.filterMap Script.Item.type?).flatMap (ofType unit)) ++
  scripts.zipIdx.flatMap fun (script, unit) =>
    (script.items.filterMap Script.Item.const?).map (ofConst unit)

end Member

/-- The unit of the entry has the last segment of its name where the entry points. -/
def Entry.PointsInto (e : Entry) (sources : List Source) : Prop :=
  ∃ s, sources[e.unit.toNat]? = some s ∧
    e.span.excerpt? s.text = some (Text.bytes (lastSegment e.name))

end Symbols

open Symbols

/-! ## Names in the text -/

namespace Script

/-- The entries of one declaration. -/
def Item.entries (unit : Nat) : Item → List Entry
  | .type t => Program.typeEntries ⟨unit, t⟩
  | .const c => [Program.constEntry ⟨unit, c⟩]

/-- The names that a declaration gives: its own and those of its fields. -/
def Item.names : Item → List Ident
  | .type t => t.name :: t.fields.map (·.name)
  | .const c => [c.name]

theorem identifier_of_many {ts : List Token} {fs : List FieldDecl} (h : Many FieldOf ts fs) :
    ∀ f ∈ fs, ∃ x ∈ ts, x.kind = .identifier ∧ f.name = identOf x := by
  induction h with
  | nil => exact fun _ hf => nomatch hf
  | @cons ts us f fs hf _ ih =>
    rw [List.forall_mem_cons]
    constructor
    · cases hf with
      | field hx => exact ⟨_, List.mem_append_left _ List.mem_cons_self, hx, rfl⟩
    · intro g hg
      obtain ⟨x, hx, hkind, hname⟩ := ih g hg
      exact ⟨x, List.mem_append_right _ hx, hkind, hname⟩

/-- The names are identifiers among the tokens of the declaration. -/
theorem identifier_of_itemOf {ts : List Token} {i : Item} (h : ItemOf ts i) :
    ∀ n ∈ i.names, ∃ x ∈ ts, x.kind = .identifier ∧ n = identOf x := by
  cases h with
  | type h =>
    cases h with
    | type _ _ _ _ hx _ _ hfields _ =>
      refine List.forall_mem_cons.2 ⟨⟨_, by simp, hx, rfl⟩, ?_⟩
      refine List.forall_mem_map.2 fun f hf => ?_
      obtain ⟨y, hy, hkind, hname⟩ := identifier_of_many hfields f hf
      exact ⟨y, by simp [hy], hkind, hname⟩
  | const h =>
    cases h with
    | const _ hx => exact List.forall_mem_singleton.2 ⟨_, by simp, hx, rfl⟩

/-- An entry stands for one of the names, which its own name ends in. -/
theorem name_of_mem_entries {i : Item} {unit : Nat} {e : Entry} (h : e ∈ i.entries unit) :
    ∃ n ∈ i.names, e.span = n.span ∧
      (e.name = n.name ∨ ∃ type, e.name = type ++ "." ++ n.name) := by
  cases i with
  | type t =>
    rcases List.mem_cons.1 h with rfl | h
    · exact ⟨_, List.mem_cons_self, rfl, .inl rfl⟩
    · obtain ⟨f, hf, rfl⟩ := List.mem_map.1 h
      exact ⟨f.name, List.mem_cons_of_mem _ (List.mem_map_of_mem hf), rfl, .inr ⟨_, rfl⟩⟩
  | const c =>
    obtain rfl := List.mem_singleton.1 h
    exact ⟨_, List.mem_cons_self, rfl, .inl rfl⟩

/-- In a source that can be read, the names that are given stand in it and have no points. -/
theorem token_of_parse? {text : String} {script : Script} (h : parse? text = .ok script) {i : Item}
    (hi : i ∈ script.items) :
    ∀ n ∈ i.names, ∃ x, .token x ∈ Token.ofSource text ∧ n = identOf x ∧ '.' ∉ n.name.toList := by
  intro n hn
  obtain ⟨ts, line, col, hlex, hscript⟩ := derives_of_parse? h
  obtain ⟨us, hus, hmem⟩ := itemOf_of_mem hscript i hi
  obtain ⟨x, hx, hkind, rfl⟩ := identifier_of_itemOf hus n hn
  have hpiece : .token x ∈ Token.ofSource text := by
    rw [hlex]
    exact List.mem_map_of_mem (List.mem_append_left _ (hmem x hx))
  refine ⟨x, hpiece, rfl, fun hdot => ?_⟩
  obtain ⟨before, after, hcut⟩ := Token.exists_cutAt .start text.toList hpiece
  exact absurd ((hcut.word (by rw [hkind]; rfl)).2 '.' hdot) (by decide)

/-- In a source that can be read, each entry points at the last segment of its name. -/
theorem excerpt?_of_parse? {text : String} {script : Script} (h : parse? text = .ok script)
    (hlength : (Text.bytes text).length < 4294967295) (unit : Nat) {i : Item}
    (hi : i ∈ script.items) : ∀ e ∈ i.entries unit,
      e.span.excerpt? text = some (Text.bytes (lastSegment e.name)) := by
  intro e he
  obtain ⟨n, hn, hspan, hname⟩ := name_of_mem_entries he
  obtain ⟨x, hpiece, rfl, hpoint⟩ := token_of_parse? h hi n hn
  have hsegment : lastSegment e.name = x.lexeme := by
    rcases hname with hname | ⟨type, hname⟩
    · rw [hname, lastSegment_of_bare hpoint]
      rfl
    · rw [hname, lastSegment_of_qualified type hpoint]
      rfl
  rw [hspan, hsegment]
  exact Token.excerpt?_of_mem_ofSource hpiece hlength

end Script

/-! ## Units -/

/-- A blank unit declares nothing, so it makes no difference that blank units are skipped. -/
theorem declared_readUnits_eq (units : List (Source × Nat)) :
    declared (readUnits units).1 =
      units.flatMap fun u => (Script.parse u.1.text).1.items.map fun item => (u.2, item) := by
  induction units with
  | nil => rfl
  | cons u units ih =>
    obtain ⟨source, unit⟩ := u
    rw [List.flatMap_cons, ← ih]
    cases hblank : source.isBlank with
    | true =>
      rw [readUnits_blank hblank, (Script.parse_of_isBlank hblank).1, List.map_nil, List.nil_append]
    | false =>
      rw [readUnits_text hblank, declared, List.flatMap_cons]
      rfl

namespace Declarations

theorem types_ofSources (sources : List Source) : (ofSources sources).types =
    sources.zipIdx.flatMap fun u =>
      ((Script.parse u.1.text).1.items.filterMap Script.Item.type?).map (Declared.mk u.2) := by
  simp [ofSources, declared_readUnits_eq, typesOf, List.filterMap_flatMap, List.map_filterMap]

theorem constants_ofSources (sources : List Source) : (ofSources sources).constants =
    sources.zipIdx.flatMap fun u =>
      ((Script.parse u.1.text).1.items.filterMap Script.Item.const?).map (Declared.mk u.2) := by
  simp [ofSources, declared_readUnits_eq, constsOf, List.filterMap_flatMap, List.map_filterMap]

/-- What is declared, of one kind, stands in the unit that it is declared with. -/
theorem exists_of_mem_flatMap {α : Type} {f : Script.Item → Option α} {sources : List Source}
    {d : Declared α}
    (h : d ∈ sources.zipIdx.flatMap fun u =>
      ((Script.parse u.1.text).1.items.filterMap f).map (Declared.mk u.2)) :
    ∃ s, sources[d.unit]? = some s ∧ ∃ i ∈ (Script.parse s.text).1.items, f i = some d.decl := by
  obtain ⟨⟨s, unit⟩, hu, hd⟩ := List.mem_flatMap.1 h
  obtain ⟨decl, hdecl, rfl⟩ := List.mem_map.1 hd
  exact ⟨s, List.mem_zipIdx_iff_getElem?.1 hu, List.mem_filterMap.1 hdecl⟩

theorem exists_of_mem_types {sources : List Source} {t : Declared Script.TypeDecl}
    (h : t ∈ (ofSources sources).types) :
    ∃ s, sources[t.unit]? = some s ∧ .type t.decl ∈ (Script.parse s.text).1.items := by
  rw [types_ofSources] at h
  obtain ⟨s, hs, i, hi, heq⟩ := exists_of_mem_flatMap h
  cases i with
  | type u =>
    cases heq
    exact ⟨s, hs, hi⟩
  | const c => cases heq

theorem exists_of_mem_constants {sources : List Source} {c : Declared Script.ConstDecl}
    (h : c ∈ (ofSources sources).constants) :
    ∃ s, sources[c.unit]? = some s ∧ .const c.decl ∈ (Script.parse s.text).1.items := by
  rw [constants_ofSources] at h
  obtain ⟨s, hs, i, hi, heq⟩ := exists_of_mem_flatMap h
  cases i with
  | type t => cases heq
  | const u =>
    cases heq
    exact ⟨s, hs, hi⟩

end Declarations

/-! ## Entries -/

namespace Program

variable {module : String} {sources : List Source} {snapshot : Snapshot}

theorem member_typeEntries {unit : Nat} (h : unit < 4294967296) (t : Script.TypeDecl) :
    (typeEntries ⟨unit, t⟩).map Entry.member = Member.ofType unit t := by
  have hunit : (UInt32.ofNat unit).toNat = unit := UInt32.toNat_ofNat_of_lt' h
  simp [typeEntries, Member.ofType, Entry.member, hunit, Function.comp_def]

theorem member_constEntry {unit : Nat} (h : unit < 4294967296) (c : Script.ConstDecl) :
    (constEntry ⟨unit, c⟩).member = Member.ofConst unit c := by
  have hunit : (UInt32.ofNat unit).toNat = unit := UInt32.toNat_ofNat_of_lt' h
  simp [constEntry, Member.ofConst, Entry.member, hunit]

theorem unit_of_mem_entries {i : Script.Item} {unit : Nat} {e : Entry} (h : e ∈ i.entries unit) :
    e.unit = UInt32.ofNat unit := by
  cases i with
  | type t =>
    rcases List.mem_cons.1 h with rfl | h
    · rfl
    · obtain ⟨f, -, rfl⟩ := List.mem_map.1 h
      rfl
  | const c =>
    obtain rfl := List.mem_singleton.1 h
    rfl

/-- The entries for the declarations of all units. -/
def entriesOf (sources : List Source) : List Entry :=
  let decls := Declarations.ofSources sources
  decls.types.flatMap typeEntries ++ decls.constants.map constEntry

theorem members_entriesOf (h : sources.length < 4294967296) :
    (entriesOf sources).map Entry.member =
      Member.ofScripts (sources.map fun s => (Script.parse s.text).1) := by
  have hunit : ∀ u ∈ sources.zipIdx, u.2 < 4294967296 := by
    intro u hu
    have := (List.getElem?_eq_some_iff.1 (List.mem_zipIdx_iff_getElem?.1 hu)).1
    omega
  simp only [entriesOf, Declarations.types_ofSources, Declarations.constants_ofSources,
    Member.ofScripts, List.map_append, List.map_flatMap, List.flatMap_assoc, List.flatMap_map,
    List.zipIdx_map, List.map_map, Prod.map]
  congr 1
  · refine List.flatMap_congr fun u hu => List.flatMap_congr fun t _ => ?_
    exact member_typeEntries (hunit u hu) t
  · refine List.flatMap_congr fun u hu => List.map_congr_left fun c _ => ?_
    exact member_constEntry (hunit u hu) c

/-- Every entry is one of a declaration in some unit. -/
theorem exists_of_mem_entriesOf {e : Entry} (h : e ∈ entriesOf sources) :
    ∃ s unit, sources[unit]? = some s ∧
      ∃ i ∈ (Script.parse s.text).1.items, e ∈ i.entries unit := by
  rcases List.mem_append.1 h with h | h
  · obtain ⟨d, hd, he⟩ := List.mem_flatMap.1 h
    obtain ⟨s, hs, hi⟩ := Declarations.exists_of_mem_types hd
    exact ⟨s, d.unit, hs, _, hi, he⟩
  · obtain ⟨d, hd, rfl⟩ := List.mem_map.1 h
    obtain ⟨s, hs, hi⟩ := Declarations.exists_of_mem_constants hd
    exact ⟨s, d.unit, hs, _, hi, List.mem_singleton.2 rfl⟩

end Program

theorem getElem?_origins (sources : List Source) (unit : Nat) :
    (origins sources)[unit]? =
      sources[unit]?.map fun s => s.origin.getD ("<unit " ++ toString unit ++ ">") := by
  simp [origins, List.getElem?_zipIdx, Function.comp_def]

theorem WellFormed.entries_symbols {module : String} {sources : List Source} {snapshot : Snapshot}
    (h : WellFormed module sources snapshot) (names : List String) :
    ((Program.ofSources module sources snapshot).symbols names).entries =
      Program.entriesOf sources := by
  rw [Program.symbols, h.scope_eq]
  rfl

/-- The symbols of a compile that emits them. -/
theorem symbols_of_compile {options : Options} {module : String} {sources : List Source}
    {snapshot : Snapshot} {o : Output} {bytes : Bytes}
    (h : (compile options module sources snapshot).output = some o)
    (hsymbols : o.symbols = some bytes) :
    bytes = ((Program.ofSources module sources snapshot).symbols (origins sources)).encode := by
  unfold compile at h
  dsimp only at h
  split at h
  · cases h
  · cases h
    dsimp only at hsymbols
    split at hsymbols
    · exact (Option.some_inj.1 hsymbols).symm
    · cases hsymbols

/--
The debug symbols that a compile emits have an origin for every unit, blank ones included, and an
entry for every type, after it one for each of its fields, and after all types one for every
constant. Each entry points at the last segment of its name in the text of its unit.
-/
theorem compile_symbols {options : Options} {module : String} {sources : List Source}
    {snapshot : Snapshot} {o : Output} {bytes : Bytes}
    (h : (compile options module sources snapshot).output = some o)
    (hsymbols : o.symbols = some bytes)
    (hunits : sources.length < 4294967296)
    (htexts : ∀ s ∈ sources, (Text.bytes s.text).length < 4294967295) :
    ∃ symbols scripts, bytes = symbols.encode ∧
      (symbols.Fits → Symbols.decode bytes = .ok symbols) ∧
      List.Forall₂ (fun s script => Script.parse? s.text = .ok script) sources scripts ∧
      (∀ unit : Nat, symbols.units[unit]? =
        sources[unit]?.map fun s => s.origin.getD ("<unit " ++ toString unit ++ ">")) ∧
      symbols.entries.map Entry.member = Member.ofScripts scripts ∧
      ∀ e ∈ symbols.entries, e.PointsInto sources := by
  obtain ⟨hw, -⟩ := compile_output h
  obtain rfl := symbols_of_compile h hsymbols
  refine ⟨_, _, rfl, decode_encode, hw.forall₂_parse?, getElem?_origins sources, ?_, ?_⟩
  · rw [hw.entries_symbols]
    exact Program.members_entriesOf hunits
  · intro e he
    rw [hw.entries_symbols] at he
    obtain ⟨s, unit, hs, i, hi, he⟩ := Program.exists_of_mem_entriesOf he
    have hlt := (List.getElem?_eq_some_iff.1 hs).1
    have hunit : e.unit.toNat = unit := by
      rw [Program.unit_of_mem_entries he]
      exact UInt32.toNat_ofNat_of_lt' (Nat.lt_trans hlt hunits)
    have hmem := List.mem_of_getElem? hs
    have hparse := hw.parse?_of_mem hmem
    exact ⟨s, by rw [hunit, hs], Script.excerpt?_of_parse? hparse (htexts s hmem) unit hi e he⟩

/-! ### Characters of several bytes before names, and a blank unit between two others -/

def drawings : List Source :=
  [⟨"\ufeff/* é */ type Dot \x7b /* ü\n */ x: int; y: int; \x7d", some "dot"⟩,
    ⟨"\t\n", none⟩,
    ⟨"// ∀\nconst NAME = \"ñ\"; type Line \x7b from: Dot; \x7d", none⟩]

theorem compile_symbols_drawings :
    ∃ (o : Output) (bytes : Bytes) (symbols : Symbols) (scripts : List Script),
      (compile .debug "Drawings" drawings ⟨[]⟩).output = some o ∧ o.symbols = some bytes ∧
      bytes = symbols.encode ∧
      List.Forall₂ (fun s script => Script.parse? s.text = .ok script) drawings scripts ∧
      symbols.units[1]? = some "<unit 1>" ∧
      symbols.entries.map Entry.member = Member.ofScripts scripts ∧
      ∀ e ∈ symbols.entries, e.PointsInto drawings := by
  have hsome :
      ((compile .debug "Drawings" drawings ⟨[]⟩).output.bind (·.symbols)).isSome = true := by
    decide +kernel
  obtain ⟨bytes, hbytes⟩ := Option.isSome_iff_exists.1 hsome
  obtain ⟨o, ho, hsymbols⟩ := Option.bind_eq_some_iff.1 hbytes
  have htexts : ∀ s ∈ drawings, (Text.bytes s.text).length < 4294967295 := by
    decide +kernel
  obtain ⟨symbols, scripts, hencode, -, hscripts, horigins, hmembers, hpoints⟩ :=
    compile_symbols ho hsymbols (by decide) htexts
  exact ⟨o, bytes, symbols, scripts, ho, hsymbols, hencode, hscripts, horigins 1, hmembers, hpoints⟩

end Linkage
