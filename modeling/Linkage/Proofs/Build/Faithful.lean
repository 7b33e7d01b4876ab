import Linkage.Proofs.Build.Accepted
import Mathlib.Data.List.Forall2
import Mathlib.Data.List.TakeWhile

/-!
# Linkage.Proofs.Build.Faithful

`compile_emits`: an image says what the sources declare, no less and no more.

The passes skip what they cannot make sense of: a field whose type is not found or whose name is
repeated, a constant without a value. What they emit they match with the declarations by position.
In a well-formed program nothing is skipped, so the positions stay the same.

* `Contents.ofScripts` — the declarations of all units; a blank unit has none.
* `Contents.Emits` — an interface says what the declarations say, one for one and in their order.
-/

namespace Linkage

theorem forall₂_of_getElem? {α β : Type} {R : α → β → Prop} :
    ∀ {xs : List α} {ys : List β}, (∀ i : Nat, Option.Rel R xs[i]? ys[i]?) → List.Forall₂ R xs ys
  | [], [], _ => .nil
  | [], _ :: _, h => nomatch h 0
  | _ :: _, [], h => nomatch h 0
  | x :: xs, y :: ys, h => by
    have hhead : Option.Rel R (some x) (some y) := h 0
    cases hhead with
    | some hxy => exact .cons hxy (forall₂_of_getElem? fun i => h (i + 1))

/-! ## Units -/

theorem Token.blankLength_of_all {cs : List Char} (h : cs.all Text.isBlankChar = true) :
    blankLength cs = cs.length := by
  have hrun : run Text.isBlankChar cs = cs.length := by
    rw [run, List.takeWhile_eq_self_iff.2 (List.all_eq_true.1 h)]
  unfold blankLength
  split
  · cases h
  · exact hrun

/-- Nothing is read from a blank unit. -/
theorem Script.parse_of_isBlank {text : String} (h : Text.isBlank text = true) :
    (parse text).1.items = [] ∧ (parse text).2 = [] := by
  have hscan : ∃ line col, Token.ofSource text = [.token (.endAt line col)] := by
    have hdrop : text.toList.drop (Token.blankLength text.toList) = [] := by
      rw [Token.blankLength_of_all h, List.drop_length]
    unfold Token.ofSource Token.scan
    dsimp only
    split
    · exact ⟨_, _, rfl⟩
    · rename_i c rest hrest
      rw [hdrop] at hrest
      cases hrest
  obtain ⟨line, col, htokens⟩ := hscan
  rw [parse, htokens]
  exact ⟨rfl, rfl⟩

theorem Source.items_eq (sources : List Source) :
    Source.items sources = sources.flatMap fun s => (Script.parse s.text).1.items := by
  induction sources with
  | nil => rfl
  | cons s sources ih =>
    rw [List.flatMap_cons, ← ih]
    cases hblank : s.isBlank with
    | true => simp [Source.items, hblank, (Script.parse_of_isBlank hblank).1]
    | false => simp [Source.items, hblank]

namespace Contents

/-- What these units declare, in order. -/
def ofScripts (module : String) (scripts : List Script) (snapshot : Snapshot) : Contents :=
  { module := module
    snapshot := snapshot
    types := (scripts.flatMap (·.items)).filterMap Script.Item.type?
    consts := (scripts.flatMap (·.items)).filterMap Script.Item.const? }

theorem ofSources_eq_ofScripts (module : String) (sources : List Source) (snapshot : Snapshot) :
    ofSources module sources snapshot =
      ofScripts module (sources.map fun s => (Script.parse s.text).1) snapshot := by
  have hitems : (sources.map fun s => (Script.parse s.text).1).flatMap (·.items) =
      Source.items sources := by
    rw [List.flatMap_map, Source.items_eq]
  simp only [ofSources, ofScripts, hitems]

/-! ## What is emitted -/

/-- The path leads to this type and to no other, whatever the order in which it is looked for. -/
def LeadsTo (d : Contents) (p : Script.Path) (r : TypeRef) : Prop :=
  ∀ r', d.NamesType p r' ↔ r' = r

theorem LeadsTo.unique {d : Contents} {p : Script.Path} {r r' : TypeRef} (h : d.LeadsTo p r)
    (h' : d.LeadsTo p r') : r = r' :=
  (h' r).1 ((h r).2 rfl)

theorem LeadsTo.rel_unique {d : Contents} {p : Option Script.Path} {base base' : Option TypeRef}
    (h : Option.Rel d.LeadsTo p base) (h' : Option.Rel d.LeadsTo p base') : base = base' := by
  cases h with
  | none =>
    cases h'
    rfl
  | some h =>
    cases h' with
    | some h' => rw [h.unique h']

structure EmitsField (d : Contents) (f : Script.FieldDecl) (g : Field) : Prop where
  name : g.name = f.name.name
  type : d.LeadsTo f.type g.type

structure EmitsType (d : Contents) (t : Script.TypeDecl) (u : TypeDef) : Prop where
  name : u.name = t.name.name
  hash : u.hash = .ofType d.module t.name.name
  modifiers : u.modifiers = t.modifiers
  base : Option.Rel d.LeadsTo t.base u.base
  fields : List.Forall₂ d.EmitsField t.fields u.fields

/-- The expression with every path resolved; what is local is named without a module. -/
inductive Unfolds (d : Contents) : Script.Expr → ConstExpr → Prop where
  | literal {v : Value} {span : Span} : Unfolds d (.literal v span) (.literal v)
  | own {p : Script.Path} {c : Script.ConstDecl} :
      d.NamesOwn p c → Unfolds d (.path p) (.ref none p.name.name)
  | imported {p : Script.Path} {m : String} {c : ConstDef} :
      d.NamesImported p m c → Unfolds d (.path p) (.ref (some m) p.name.name)
  | negate {e : Script.Expr} {x : ConstExpr} {span : Span} :
      Unfolds d e x → Unfolds d (.negate e span) (.negate x)
  | binary {op : Operator} {l r : Script.Expr} {x y : ConstExpr} {span : Span} :
      Unfolds d l x → Unfolds d r y → Unfolds d (.binary op l r span) (.binary op x y)

/-- A release build stores the value and a debug build the expression. -/
inductive EmitsInit (d : Contents) (e : Script.Expr) (v : Value) : Optimization → Init → Prop where
  | release : EmitsInit d e v .release (.value v)
  | debug {x : ConstExpr} : d.Unfolds e x → EmitsInit d e v .debug (.expr x)

structure EmitsConst (d : Contents) (o : Optimization) (c : Script.ConstDecl) (k : ConstDef) :
    Prop where
  name : k.name = c.name.name
  init : ∃ v, (∀ w, d.Denotes c.value w ↔ w = v) ∧ k.kind = v.kind ∧
    d.EmitsInit c.value v o k.init

structure Emits (d : Contents) (o : Optimization) (i : Interface) : Prop where
  name : i.name = d.module
  optimization : i.optimization = o
  types : List.Forall₂ d.EmitsType d.types i.types
  constants : List.Forall₂ (d.EmitsConst o) d.consts i.constants

end Contents

/-! ## Types -/

namespace Scope

variable {s : Scope}

theorem leadsTo_iff (h : s.contents.NamesSound) {p : Script.Path} {r : TypeRef} :
    s.contents.LeadsTo p r ↔ s.contents.NamesType p r := by
  refine ⟨fun hl => (hl r).2 rfl, fun hr r' => ⟨fun hr' => ?_, fun heq => heq ▸ hr⟩⟩
  rw [← typeRef_eq_ok h] at hr hr'
  rw [hr] at hr'
  exact (Except.ok.inj hr').symm

theorem rel_resolveBase (h : s.contents.NamesSound) {unit : Nat} {t : Script.TypeDecl}
    (hs : s.contents.BaseSound t) :
    Option.Rel s.contents.LeadsTo t.base (s.resolveBase unit t).1 := by
  cases hb : t.base with
  | none =>
    rw [resolveBase, hb]
    exact .none
  | some p =>
    obtain ⟨r, hnames, -⟩ := hs p hb
    rw [(resolveBase_eq_some h hs).2 ⟨p, hb, hnames⟩]
    exact .some ((leadsTo_iff h).2 hnames)

/-- By induction on the fields; no name is among those before it, so no field is passed over. -/
theorem forall₂_resolveFields (h : s.contents.NamesSound) {unit : Nat} {type : String}
    (fs : List Script.FieldDecl) : ∀ seen : List String,
      (fs.map (·.name.name)).Nodup → (∀ n ∈ seen, n ∉ fs.map (·.name.name)) →
      (∀ f ∈ fs, ∃ r, s.contents.NamesType f.type r) →
      List.Forall₂ (fun f g => g.decl = f ∧ s.contents.NamesType f.type g.type) fs
        (s.resolveFields unit type seen fs).1 := by
  induction fs with
  | nil => exact fun _ _ _ _ => .nil
  | cons f fs ih =>
    intro seen hnodup hseen hfound
    rw [List.map_cons, List.nodup_cons] at hnodup
    obtain ⟨r, hr⟩ := hfound f List.mem_cons_self
    have hnew : seen.contains f.name.name = false :=
      Bool.eq_false_iff.2 fun hm => hseen _ (List.contains_iff_mem.1 hm) List.mem_cons_self
    have hrest := ih (f.name.name :: seen) hnodup.2
      (List.forall_mem_cons.2 ⟨hnodup.1, fun n hn hm => hseen n hn (List.mem_cons_of_mem _ hm)⟩)
      fun g hg => hfound g (List.mem_cons_of_mem f hg)
    simp only [resolveFields, hnew, Bool.false_eq_true, if_false, (typeRef_eq_ok h).2 hr]
    exact .cons ⟨rfl, hr⟩ hrest

/-! ## Constants -/

theorem unfolds_of_resolves (h : s.contents.NamesSound) {e : Script.Expr} {t : Term}
    (ht : s.Resolves e t) : s.contents.Unfolds e (t.toConstExpr s.constName) := by
  induction ht with
  | literal => exact .literal
  | own htarget =>
    obtain ⟨c, hc, hn⟩ := (constId?_eq_some h).1 (constTarget_eq_own.1 htarget).2
    rw [Term.toConstExpr, constName_eq hc, hn]
    exact .own ((namesOwn_iff h).2 ⟨_, htarget, c, hc, rfl⟩)
  | imported htarget =>
    have hnames := constTarget_eq_imported.1 htarget
    obtain ⟨r, -, hc⟩ := Snapshot.const?_eq_some.1 hnames.exported
    rw [Term.toConstExpr, Interface.name_of_const? hc]
    exact .imported hnames
  | negate _ ih => exact .negate ih
  | binary _ _ ihl ihr => exact .binary ihl ihr

end Scope

namespace WellFormed

variable {module : String} {sources : List Source} {snapshot : Snapshot}

theorem ConstantAt.denotes_iff (h : WellFormed module sources snapshot) {id : Nat}
    {c : Declared Script.ConstDecl} {t : Term} {v : Value}
    (hc : ConstantAt module sources snapshot id c t v) (w : Value) :
    (Scope.ofSources module sources snapshot).contents.Denotes c.decl.value w ↔ w = v := by
  have hnames := h.contents_sound.names
  constructor
  · intro hw
    have heval : WellFormed.value module sources snapshot id = some w := by
      rw [h.consistent id c t hc.declared hc.resolves]
      exact Scope.eval_of_denotes hnames h.allFound h.consistent hw hc.resolves
    rw [hc.value] at heval
    exact (Option.some_inj.1 heval).symm
  · rintro rfl
    exact Scope.denotes_of_value hnames h.allFound h.acyclic h.consistent id c w hc.declared hc.value

theorem emitsConst (h : WellFormed module sources snapshot) (o : Optimization) {id : Nat}
    {c : Declared Script.ConstDecl} {t : Term} {v : Value}
    (hc : ConstantAt module sources snapshot id c t v) :
    (Scope.ofSources module sources snapshot).contents.EmitsConst o c.decl
      (constDef (Scope.ofSources module sources snapshot) o c.decl.name.name t v) where
  name := rfl
  init := by
    refine ⟨v, hc.denotes_iff h, rfl, ?_⟩
    cases o with
    | debug => exact .debug (Scope.unfolds_of_resolves h.contents_sound.names hc.resolves)
    | release => exact .release

theorem emitsType (h : WellFormed module sources snapshot) {t : Declared Script.TypeDecl}
    (ht : t ∈ (Scope.ofSources module sources snapshot).decls.types) :
    (Scope.ofSources module sources snapshot).contents.EmitsType t.decl
      ((Program.ofSources module sources snapshot).typeDef t
        ((Scope.ofSources module sources snapshot).resolveType t).1) := by
  have hs := h.contents_sound
  have hmem := List.mem_map_of_mem (f := (·.decl)) ht
  obtain ⟨hnodup, hfound⟩ := hs.fields t.decl hmem
  refine ⟨rfl, ?_, rfl, Scope.rel_resolveBase hs.names (hs.bases t.decl hmem), ?_⟩
  · rw [Program.typeDef, h.scope_eq]
    rfl
  · refine List.forall₂_map_right_iff.2 (List.Forall₂.imp ?_ (Scope.forall₂_resolveFields hs.names
      t.decl.fields [] hnodup (fun _ hn => nomatch hn) hfound))
    rintro f g ⟨rfl, hg⟩
    exact ⟨rfl, (Scope.leadsTo_iff hs.names).2 hg⟩

theorem types_interface (h : WellFormed module sources snapshot) (o : Optimization) :
    ((Program.ofSources module sources snapshot).interface o).types =
      (Scope.ofSources module sources snapshot).decls.types.map fun t =>
        (Program.ofSources module sources snapshot).typeDef t
          ((Scope.ofSources module sources snapshot).resolveType t).1 := by
  rw [Program.interface, h.scope_eq, h.types_eq, Scope.resolvedTypes, List.zipWith_map_right,
    List.zipWith_self]

theorem emits (h : WellFormed module sources snapshot) (o : Optimization) :
    (Scope.ofSources module sources snapshot).contents.Emits o
      ((Program.ofSources module sources snapshot).interface o) where
  name := congrArg Scope.module h.scope_eq
  optimization := rfl
  types := by
    rw [h.types_interface]
    refine List.forall₂_map_left_iff.2 (List.forall₂_map_right_iff.2 ?_)
    exact List.forall₂_same.2 fun t ht => h.emitsType ht
  constants := by
    refine List.forall₂_map_left_iff.2 (forall₂_of_getElem? fun id => ?_)
    cases hc : (Scope.ofSources module sources snapshot).decls.constants[id]? with
    | none =>
      rw [h.getElem?_constants, List.zip, List.getElem?_zipWith, hc]
      exact .none
    | some c =>
      obtain ⟨t, v, hc⟩ := h.exists_constantAt hc
      rw [h.getElem?_constants_eq o hc]
      exact .some (h.emitsConst o hc)

theorem parse?_of_mem (h : WellFormed module sources snapshot) {s : Source} (hs : s ∈ sources) :
    Script.parse? s.text = .ok (Script.parse s.text).1 := by
  have herrors : (Script.parse s.text).2 = [] := by
    cases hblank : s.isBlank with
    | true => exact (Script.parse_of_isBlank hblank).2
    | false => exact h.readable s hs hblank
  have hparse : Script.parse s.text = ((Script.parse s.text).1, []) := Prod.ext rfl herrors
  rw [Script.parse?, hparse]

theorem forall₂_parse? (h : WellFormed module sources snapshot) :
    List.Forall₂ (fun s script => Script.parse? s.text = .ok script) sources
      (sources.map fun s => (Script.parse s.text).1) :=
  List.forall₂_map_right_iff.2 (List.forall₂_same.2 fun _ => h.parse?_of_mem)

end WellFormed

/--
An image that a compile makes says what the units declare, blank ones included: every type and
every constant once, in unit order and then in the order of the text.
-/
theorem compile_emits {options : Options} {module : String} {sources : List Source}
    {snapshot : Snapshot} {o : Output}
    (h : (compile options module sources snapshot).output = some o) :
    let emitted := (Program.ofSources module sources snapshot).interface options.optimization
    o.image = emitted.encode ∧ (emitted.Fits → Interface.decode o.image = .ok emitted) ∧
      ∃ scripts,
        List.Forall₂ (fun s script => Script.parse? s.text = .ok script) sources scripts ∧
        (Contents.ofScripts module scripts snapshot).Emits options.optimization emitted := by
  obtain ⟨hw, himage⟩ := compile_output h
  refine ⟨himage, fun hfits => ?_, _, hw.forall₂_parse?, ?_⟩
  · rw [himage]
    exact hw.decode_encode _ hfits
  · rw [← Contents.ofSources_eq_ofScripts, ← Scope.contents_ofSources]
    exact hw.emits _

/-! ### Two units and a blank one -/

def paint : Interface :=
  { name := "Paint"
    optimization := .release
    references := []
    types := [.make "Paint" "Color" .empty none []]
    constants := [⟨"DEPTH", .int, .value (.int 8)⟩] }

def withPaint : Snapshot := ⟨[⟨paint, .memory⟩]⟩

def pictures : List Source :=
  [⟨"type Shape \x7b id: int; \x7d const BITS = -Paint.DEPTH * 3;", none⟩,
    ⟨" \n", none⟩,
    ⟨"sealed type Square extends Pictures.Shape \x7b fill: Paint.Color; side: int; \x7d", none⟩]

def emittedPictures : Interface :=
  { name := "Pictures"
    optimization := .debug
    references := ["Paint"]
    types :=
      [.make "Pictures" "Shape" .empty none [⟨"id", .builtin .int⟩],
        .make "Pictures" "Square" .sealed (some (.own "Shape"))
          [⟨"fill", .imported "Paint" "Color"⟩, ⟨"side", .builtin .int⟩]]
    constants :=
      [⟨"BITS", .int, .expr (.binary .mul (.negate (.ref (some "Paint") "DEPTH"))
        (.literal (.int 3)))⟩] }

theorem compile_emits_pictures :
    ∃ o scripts, (compile .debug "Pictures" pictures withPaint).output = some o ∧
      Interface.decode o.image = .ok emittedPictures ∧
      List.Forall₂ (fun s script => Script.parse? s.text = .ok script) pictures scripts ∧
      (Contents.ofScripts "Pictures" scripts withPaint).Emits .debug emittedPictures := by
  have hsome : (compile .debug "Pictures" pictures withPaint).output.isSome = true := by
    decide +kernel
  have hemitted :
      (Program.ofSources "Pictures" pictures withPaint).interface Options.debug.optimization =
        emittedPictures := by
    decide +kernel
  obtain ⟨o, ho⟩ := Option.isSome_iff_exists.1 hsome
  obtain ⟨-, hdecode, scripts, hscripts, hemits⟩ := compile_emits ho
  rw [hemitted] at hdecode hemits
  exact ⟨o, scripts, ho, hdecode (by decide +kernel), hscripts, hemits⟩

end Linkage
