import Linkage.Proofs.Build.Symbols

/-!
# Linkage.Proofs.Build.Lookup

`compile_lookup`: which members of a module can be looked up in its debug symbols.

Types and constants have separate namespaces, but their entries stand in one table of which a
lookup returns the first match. So a constant that has the name of a type is hidden by the type.
No other two members have the same name there.
-/

namespace Linkage

open Symbols

/-! ## Names of entries -/

namespace Program

theorem map_name_typeEntries (t : Declared Script.TypeDecl) :
    (typeEntries t).map (·.name) = t.decl.name.name ::
      (t.decl.fields.map (·.name.name)).map (t.decl.name.name ++ "." ++ ·) := by
  simp [typeEntries, Function.comp_def]

/-- Up to the first point, all names of entries for a type are the name of the type. -/
theorem takeWhile_of_mem_typeEntries {t : Declared Script.TypeDecl}
    (hbare : '.' ∉ t.decl.name.name.toList) {name : String}
    (h : name ∈ (typeEntries t).map (·.name)) :
    name.toList.takeWhile (· ≠ '.') = t.decl.name.name.toList := by
  rw [map_name_typeEntries] at h
  rcases List.mem_cons.1 h with rfl | h
  · exact takeWhile_of_bare hbare
  · obtain ⟨field, -, rfl⟩ := List.mem_map.1 h
    rw [toList_qualified, takeWhile_of_qualified hbare]

theorem nodup_typeEntries {t : Declared Script.TypeDecl}
    (hbare : '.' ∉ t.decl.name.name.toList)
    (hfields : (t.decl.fields.map (·.name.name)).Nodup) :
    ((typeEntries t).map (·.name)).Nodup := by
  rw [map_name_typeEntries, List.nodup_cons]
  constructor
  · intro h
    obtain ⟨field, -, hfield⟩ := List.mem_map.1 h
    rw [← hfield, toList_qualified] at hbare
    simp at hbare
  · exact hfields.map fun _ _ => (String.append_right_inj _).1

/-- No two entries for types and their fields have the same name. -/
theorem nodup_flatMap_typeEntries {types : List (Declared Script.TypeDecl)}
    (hnames : (types.map (·.decl.name.name)).Nodup)
    (hbare : ∀ t ∈ types, '.' ∉ t.decl.name.name.toList)
    (hfields : ∀ t ∈ types, (t.decl.fields.map (·.name.name)).Nodup) :
    ((types.flatMap typeEntries).map (·.name)).Nodup := by
  rw [List.map_flatMap, List.nodup_flatMap]
  refine ⟨fun t ht => nodup_typeEntries (hbare t ht) (hfields t ht), ?_⟩
  refine (List.pairwise_map.1 hnames).imp_of_mem fun {t t'} ht ht' hne => ?_
  intro name hname hname'
  have hsame := (takeWhile_of_mem_typeEntries (hbare t ht) hname).symm.trans
    (takeWhile_of_mem_typeEntries (hbare t' ht') hname')
  exact hne (String.toList_injective hsame)

end Program

/-! ## Lookup -/

namespace WellFormed

variable {module : String} {sources : List Source} {snapshot : Snapshot}

/-- No name that a source gives has a point in it. -/
theorem bare_names (h : WellFormed module sources snapshot) {s : Source} {unit : Nat}
    (hs : sources[unit]? = some s) {i : Script.Item} (hi : i ∈ (Script.parse s.text).1.items) :
    ∀ n ∈ i.names, '.' ∉ n.name.toList := by
  intro n hn
  obtain ⟨-, -, -, hbare⟩ :=
    Script.token_of_parse? (h.parse?_of_mem (List.mem_of_getElem? hs)) hi n hn
  exact hbare

theorem bare_of_mem_types (h : WellFormed module sources snapshot) {t : Declared Script.TypeDecl}
    (ht : t ∈ (Declarations.ofSources sources).types) : '.' ∉ t.decl.name.name.toList := by
  obtain ⟨s, hs, hi⟩ := Declarations.exists_of_mem_types ht
  exact h.bare_names hs hi _ List.mem_cons_self

theorem bare_of_mem_constants (h : WellFormed module sources snapshot)
    {c : Declared Script.ConstDecl} (hc : c ∈ (Declarations.ofSources sources).constants) :
    '.' ∉ c.decl.name.name.toList := by
  obtain ⟨s, hs, hi⟩ := Declarations.exists_of_mem_constants hc
  exact h.bare_names hs hi _ List.mem_cons_self

/-- All entries for types and fields can be looked up. -/
theorem find?_of_mem_typeEntries (h : WellFormed module sources snapshot) {e : Entry}
    {t : Declared Script.TypeDecl} (ht : t ∈ (Declarations.ofSources sources).types)
    (he : e ∈ Program.typeEntries t) :
    (Program.entriesOf sources).find? (·.name == e.name) = some e := by
  have hs := h.contents_sound
  have hnodup : (((Declarations.ofSources sources).types.flatMap Program.typeEntries).map
      (·.name)).Nodup :=
    Program.nodup_flatMap_typeEntries (Scope.nodup_typeNames hs.names)
      (fun t ht => h.bare_of_mem_types ht)
      (fun t ht => (hs.fields t.decl (List.mem_map_of_mem ht)).1)
  have hfind := (find?_eq_some_of_nodup hnodup).2 ⟨List.mem_flatMap.2 ⟨t, ht, he⟩, rfl⟩
  exact (List.find?_append ..).trans (by rw [hfind, Option.some_or])

/-- The entry for a constant comes after those for types, so it must have a name of its own. -/
theorem find?_constEntry (h : WellFormed module sources snapshot) {c : Declared Script.ConstDecl}
    (hc : c ∈ (Declarations.ofSources sources).constants)
    (hown : ∀ t ∈ (Declarations.ofSources sources).types,
      t.decl.name.name ≠ c.decl.name.name) :
    (Program.entriesOf sources).find? (·.name == c.decl.name.name) =
      some (Program.constEntry c) := by
  have htypes : ((Declarations.ofSources sources).types.flatMap Program.typeEntries).find?
      (·.name == c.decl.name.name) = none := by
    refine List.find?_eq_none.2 fun e he heq => ?_
    obtain ⟨t, ht, he⟩ := List.mem_flatMap.1 he
    have hsegment := Program.takeWhile_of_mem_typeEntries (h.bare_of_mem_types ht)
      (List.mem_map_of_mem he)
    rw [eq_of_beq heq, takeWhile_of_bare (h.bare_of_mem_constants hc)] at hsegment
    exact hown t ht (String.toList_injective hsegment.symm)
  have hnodup : (((Declarations.ofSources sources).constants.map Program.constEntry).map
      (·.name)).Nodup := by
    rw [List.map_map]
    exact Scope.nodup_constNames h.contents_sound.names
  have hfind := (find?_eq_some_of_nodup hnodup).2
    ⟨List.mem_map_of_mem hc, (rfl : _ = c.decl.name.name)⟩
  exact (List.find?_append ..).trans (by rw [htypes, hfind, Option.none_or])

end WellFormed

/--
In the debug symbols that a compile emits, the qualified name of every type and of every field leads
to the kind, the unit and the place of the declaration. The name of a constant does so exactly if
no type has the same name.
-/
theorem compile_lookup {options : Options} {module : String} {sources : List Source}
    {snapshot : Snapshot} {o : Output} {bytes : Bytes}
    (h : (compile options module sources snapshot).output = some o)
    (hsymbols : o.symbols = some bytes) :
    let decls := Declarations.ofSources sources
    ∃ symbols, bytes = symbols.encode ∧ (symbols.Fits → Symbols.decode bytes = .ok symbols) ∧
      (∀ t ∈ decls.types,
        symbols.lookup? t.decl.name.name =
          some ⟨.type, t.decl.name.name, UInt32.ofNat t.unit, t.decl.name.span⟩ ∧
        ∀ f ∈ t.decl.fields, symbols.lookup? (t.decl.name.name ++ "." ++ f.name.name) =
          some ⟨.field, t.decl.name.name ++ "." ++ f.name.name, UInt32.ofNat t.unit,
            f.name.span⟩) ∧
      ∀ c ∈ decls.constants,
        symbols.lookup? c.decl.name.name =
            some ⟨.constant, c.decl.name.name, UInt32.ofNat c.unit, c.decl.name.span⟩ ↔
          ∀ t ∈ decls.types, t.decl.name.name ≠ c.decl.name.name := by
  obtain ⟨hw, -⟩ := compile_output h
  obtain rfl := symbols_of_compile h hsymbols
  intro decls
  have hlookup : ∀ name, ((Program.ofSources module sources snapshot).symbols
      (origins sources)).lookup? name = (Program.entriesOf sources).find? (·.name == name) := by
    intro name
    rw [Symbols.lookup?, hw.entries_symbols]
  have htypes : ∀ t ∈ decls.types, ∀ e ∈ Program.typeEntries t, ((Program.ofSources module sources
      snapshot).symbols (origins sources)).lookup? e.name = some e := by
    intro t ht e he
    rw [hlookup]
    exact hw.find?_of_mem_typeEntries ht he
  refine ⟨_, rfl, decode_encode, fun t ht => ⟨?_, fun f hf => ?_⟩, fun c hc => ⟨?_, ?_⟩⟩
  · exact htypes t ht _ List.mem_cons_self
  · exact htypes t ht _ (List.mem_cons_of_mem _ (List.mem_map_of_mem hf))
  · intro hfound t ht hname
    have htype := htypes t ht _ List.mem_cons_self
    rw [hname, hfound] at htype
    cases htype
  · intro hown
    rw [hlookup]
    exact hw.find?_constEntry hc hown

/-! ### A constant beside a field of the same name, and one beside a type of the same name -/

def axis : List Source :=
  [⟨"type Axis \x7b unit: int; \x7d\nconst unit = 1;", none⟩]

theorem compile_lookup_axis :
    ∃ (o : Output) (bytes : Bytes) (symbols : Symbols),
      (compile .debug "Plot" axis ⟨[]⟩).output = some o ∧ o.symbols = some bytes ∧
      bytes = symbols.encode ∧
      symbols.lookup? "Axis" = some ⟨.type, "Axis", 0, ⟨1, 6, 4⟩⟩ ∧
      symbols.lookup? "Axis.unit" = some ⟨.field, "Axis.unit", 0, ⟨1, 13, 4⟩⟩ ∧
      symbols.lookup? "unit" = some ⟨.constant, "unit", 0, ⟨2, 7, 4⟩⟩ := by
  have hsome : ((compile .debug "Plot" axis ⟨[]⟩).output.bind (·.symbols)).isSome = true := by
    decide +kernel
  obtain ⟨bytes, hbytes⟩ := Option.isSome_iff_exists.1 hsome
  obtain ⟨o, ho, hsymbols⟩ := Option.bind_eq_some_iff.1 hbytes
  have htype : ∃ t ∈ (Declarations.ofSources axis).types,
      t.unit = 0 ∧ t.decl.name = ⟨"Axis", ⟨1, 6, 4⟩⟩ ∧
      ∃ f ∈ t.decl.fields, f.name = ⟨"unit", ⟨1, 13, 4⟩⟩ := by
    decide +kernel
  have hconstant : ∃ c ∈ (Declarations.ofSources axis).constants,
      c.unit = 0 ∧ c.decl.name = ⟨"unit", ⟨2, 7, 4⟩⟩ ∧
      ∀ t ∈ (Declarations.ofSources axis).types, t.decl.name.name ≠ c.decl.name.name := by
    decide +kernel
  obtain ⟨symbols, hencode, -, htypes, hconstants⟩ := compile_lookup ho hsymbols
  obtain ⟨t, ht, htunit, htname, f, hf, hfname⟩ := htype
  obtain ⟨c, hc, hcunit, hcname, hown⟩ := hconstant
  have hlookupType := (htypes t ht).1
  have hlookupField := (htypes t ht).2 f hf
  have hlookupConstant := (hconstants c hc).2 hown
  rw [htunit, htname] at hlookupType
  rw [htunit, htname, hfname] at hlookupField
  rw [hcunit, hcname] at hlookupConstant
  exact ⟨o, bytes, symbols, ho, hsymbols, hencode, hlookupType, hlookupField, hlookupConstant⟩

def hidingAxis : List Source := [⟨"type Axis \x7b\x7d\nconst Axis = 1;", none⟩]

/-- The name of the constant leads to the type, although the constant has an entry. -/
theorem constant_hidden_by_type :
    ∃ (bytes : Bytes) (symbols : Symbols),
      (compile .debug "Plot" hidingAxis ⟨[]⟩).output.bind (·.symbols) = some bytes ∧
      Symbols.decode bytes = .ok symbols ∧
      (∃ c ∈ (Declarations.ofSources hidingAxis).constants,
        c.unit = 0 ∧ c.decl.name = ⟨"Axis", ⟨2, 7, 4⟩⟩) ∧
      ⟨.constant, "Axis", 0, ⟨2, 7, 4⟩⟩ ∈ symbols.entries ∧
      symbols.lookup? "Axis" = some ⟨.type, "Axis", 0, ⟨1, 6, 4⟩⟩ := by
  have hbytes : ((compile .debug "Plot" hidingAxis ⟨[]⟩).output.bind (·.symbols)).map
      Symbols.decode = some (.ok ⟨"Plot", ["<unit 0>"],
        [⟨.type, "Axis", 0, ⟨1, 6, 4⟩⟩, ⟨.constant, "Axis", 0, ⟨2, 7, 4⟩⟩]⟩) := by
    decide +kernel
  obtain ⟨bytes, hbytes, hdecode⟩ := Option.map_eq_some_iff.1 hbytes
  exact ⟨bytes, _, hbytes, hdecode, by decide +kernel, by decide, by decide⟩

end Linkage
