import Linkage.Interface.Decode
import Linkage.Proofs.Wire.RoundTrip

/-!
# Linkage.Proofs.Interface.RoundTrip

Reading back the image of an interface.

* `Interface.Fits` — every text and every list is short enough for the 32 bits of its length.
* `Interface.Proper` — what an image does not write can be recovered: modifiers have no bits
  without a meaning, hashes come from the names, stored values have the kind of their constant.
* `Interface.Shallow` — no initializer has more than `maxLevels` levels.

`decode_encode_of_proper`: the image of a proper interface that fits reads back as that interface
exactly if it is shallow, and is refused for its depth otherwise.
-/

namespace Linkage

open Wire
open Wire.Reader

/-! ## Lengths -/

def Text.Fits (s : String) : Prop := (Text.bytes s).length < countLimit

def TypeRef.Fits : TypeRef → Prop
  | .builtin _ => True
  | .own n => Text.Fits n
  | .imported m n => Text.Fits m ∧ Text.Fits n

def Value.Fits : Value → Prop
  | .string s => Text.Fits s
  | _ => True

def ConstExpr.Fits : ConstExpr → Prop
  | .literal v => v.Fits
  | .ref none n => Text.Fits n
  | .ref (some m) n => Text.Fits m ∧ Text.Fits n
  | .negate e => e.Fits
  | .binary _ l r => l.Fits ∧ r.Fits

def Init.Fits : Init → Prop
  | .value v => v.Fits
  | .expr e => e.Fits

structure Field.Fits (f : Field) : Prop where
  name : Text.Fits f.name
  type : f.type.Fits

structure TypeDef.Fits (t : TypeDef) : Prop where
  name : Text.Fits t.name
  base : ∀ b ∈ t.base, b.Fits
  fieldCount : t.fields.length < countLimit
  fields : ∀ f ∈ t.fields, f.Fits

structure ConstDef.Fits (c : ConstDef) : Prop where
  name : Text.Fits c.name
  init : c.init.Fits

structure Interface.Fits (i : Interface) : Prop where
  name : Text.Fits i.name
  referenceCount : i.references.length < countLimit
  references : ∀ r ∈ i.references, Text.Fits r
  typeCount : i.types.length < countLimit
  types : ∀ t ∈ i.types, t.Fits
  constantCount : i.constants.length < countLimit
  constants : ∀ c ∈ i.constants, c.Fits

instance (s : String) : Decidable (Text.Fits s) := inferInstanceAs (Decidable (_ < _))

instance : (t : TypeRef) → Decidable t.Fits
  | .builtin _ => .isTrue trivial
  | .own n => inferInstanceAs (Decidable (Text.Fits n))
  | .imported m n => inferInstanceAs (Decidable (Text.Fits m ∧ Text.Fits n))

instance : (v : Value) → Decidable v.Fits
  | .string s => inferInstanceAs (Decidable (Text.Fits s))
  | .int _ => .isTrue trivial
  | .float _ => .isTrue trivial
  | .bool _ => .isTrue trivial

instance ConstExpr.decidableFits : (e : ConstExpr) → Decidable e.Fits
  | .literal v => inferInstanceAs (Decidable v.Fits)
  | .ref none n => inferInstanceAs (Decidable (Text.Fits n))
  | .ref (some m) n => inferInstanceAs (Decidable (Text.Fits m ∧ Text.Fits n))
  | .negate e => decidableFits e
  | .binary _ l r => @instDecidableAnd _ _ (decidableFits l) (decidableFits r)

instance : (i : Init) → Decidable i.Fits
  | .value v => inferInstanceAs (Decidable v.Fits)
  | .expr e => inferInstanceAs (Decidable e.Fits)

instance (f : Field) : Decidable f.Fits :=
  decidable_of_iff (Text.Fits f.name ∧ f.type.Fits) ⟨fun ⟨a, b⟩ => ⟨a, b⟩, fun h => ⟨h.1, h.2⟩⟩

instance (t : TypeDef) : Decidable t.Fits :=
  decidable_of_iff (Text.Fits t.name ∧ (∀ b ∈ t.base, b.Fits) ∧ t.fields.length < countLimit ∧
      ∀ f ∈ t.fields, f.Fits)
    ⟨fun ⟨a, b, c, d⟩ => ⟨a, b, c, d⟩, fun h => ⟨h.name, h.base, h.fieldCount, h.fields⟩⟩

instance (c : ConstDef) : Decidable c.Fits :=
  decidable_of_iff (Text.Fits c.name ∧ c.init.Fits) ⟨fun ⟨a, b⟩ => ⟨a, b⟩, fun h => ⟨h.1, h.2⟩⟩

instance (i : Interface) : Decidable i.Fits :=
  decidable_of_iff (Text.Fits i.name ∧ i.references.length < countLimit ∧
      (∀ r ∈ i.references, Text.Fits r) ∧ i.types.length < countLimit ∧
      (∀ t ∈ i.types, t.Fits) ∧ i.constants.length < countLimit ∧ ∀ c ∈ i.constants, c.Fits)
    ⟨fun ⟨a, b, c, d, e, f, g⟩ => ⟨a, b, c, d, e, f, g⟩,
      fun h => ⟨h.name, h.referenceCount, h.references, h.typeCount, h.types, h.constantCount,
        h.constants⟩⟩

/-! ## What is not written -/

structure TypeDef.Proper (module : String) (t : TypeDef) : Prop where
  modifiers : t.modifiers.bits < 4
  hash : t.hash = .ofType module t.name

def ConstDef.Proper (c : ConstDef) : Prop := ∀ v, c.init = .value v → v.kind = c.kind

structure Interface.Proper (i : Interface) : Prop where
  types : ∀ t ∈ i.types, t.Proper i.name
  constants : ∀ c ∈ i.constants, c.Proper

def ConstDef.Shallow (c : ConstDef) : Prop := ∀ e, c.init = .expr e → e.height ≤ maxLevels

def Interface.Shallow (i : Interface) : Prop := ∀ c ∈ i.constants, c.Shallow

/-! ## Parts of records -/

@[simp] theorem Kind.ofTag?_tag (k : Kind) : Kind.ofTag? k.tag = some k := by cases k <;> rfl

@[simp] theorem Optimization.ofTag?_tag (o : Optimization) :
    Optimization.ofTag? o.tag = some o := by cases o <;> rfl

@[simp] theorem Operator.ofTag?_tag (op : Operator) : Operator.ofTag? op.tag = some op := by
  cases op <;> rfl

theorem Modifiers.ofBits?_bits {m : Modifiers} (h : m.bits < 4) :
    Modifiers.ofBits? m.bits = some m := by
  simp only [Modifiers.ofBits?, if_pos h]

theorem Kind.reads (k : Kind) : Reads Kind.reader [k.tag] k := reads_tag k.ofTag?_tag

theorem TypeRef.reads {t : TypeRef} (h : t.Fits) : Reads TypeRef.reader t.encode t := by
  cases t with
  | builtin k =>
    exact (reads_tag (b := 0) (a := RefForm.builtin) rfl).bind
      ((reads_tag k.ofTag?_tag).map TypeRef.builtin)
  | own n =>
    exact (reads_tag (b := 1) (a := RefForm.own) rfl).bind ((reads_string h).map TypeRef.own)
  | imported m n =>
    exact (reads_tag (b := 2) (a := RefForm.imported) rfl).bind
      ((reads_string h.1).bind ((reads_string h.2).map (TypeRef.imported m)))

theorem Value.reads {v : Value} (h : v.Fits) : Reads (Value.reader v.kind) v.encode v := by
  cases v with
  | int i =>
    have := (reads_u64 i.toUInt64).map fun w => Value.int w.toInt64
    rwa [Int64.toInt64_toUInt64] at this
  | float x => exact (reads_u64 x.bits).map fun w => Value.float ⟨w⟩
  | bool b => exact (reads_flag b).map Value.bool
  | string s => exact (reads_string h).map Value.string

theorem Field.reads {f : Field} (h : f.Fits) : Reads Field.reader f.encode f :=
  (reads_string h.name).bind ((TypeRef.reads h.type).map (Field.mk f.name))

theorem TypeDef.reads {module : String} {t : TypeDef} (h : t.Fits) (hp : t.Proper module) :
    Reads (TypeDef.reader module) t.encode t := by
  obtain ⟨name, hash, modifiers, base, fields⟩ := t
  obtain rfl : hash = .ofType module name := hp.hash
  have hfields := (reads_list h.fieldCount fun f hf => Field.reads (h.fields f hf)).map
    (TypeDef.make module name modifiers base)
  refine (reads_string h.name).bind ((reads_tag (Modifiers.ofBits?_bits hp.modifiers)).bind ?_)
  cases base with
  | none => exact (reads_flag false).bind ((reads_pure none).bind hfields)
  | some b =>
    have hbase : Reads (some <$> TypeRef.reader) b.encode (some b) :=
      (TypeRef.reads (h.base b rfl)).map some
    refine (reads_flag true).bind ?_
    exact hbase.bind hfields

/-! ## Expressions -/

theorem ConstExpr.reads {e : ConstExpr} (h : e.Fits) :
    ∀ {levels : Nat}, e.height ≤ levels → Reads (ConstExpr.reader levels) e.encode e := by
  induction e with
  | literal v =>
    intro levels hl
    cases levels with
    | zero => simp [ConstExpr.height] at hl
    | succ levels =>
      exact (reads_tag (b := 0) (a := ExprForm.literal) rfl).bind
        (v.kind.reads.bind ((Value.reads h).map ConstExpr.literal))
  | ref m n =>
    intro levels hl
    cases levels with
    | zero => simp [ConstExpr.height] at hl
    | succ levels =>
      cases m with
      | none =>
        exact (reads_tag (b := 1) (a := ExprForm.own) rfl).bind
          ((reads_string h).map (ConstExpr.ref none))
      | some m =>
        exact (reads_tag (b := 2) (a := ExprForm.imported) rfl).bind
          ((reads_string h.1).bind ((reads_string h.2).map (ConstExpr.ref (some m))))
  | negate e ih =>
    intro levels hl
    cases levels with
    | zero => simp [ConstExpr.height] at hl
    | succ levels =>
      exact (reads_tag (b := 3) (a := ExprForm.negate) rfl).bind
        ((ih h (Nat.le_of_succ_le_succ hl)).map ConstExpr.negate)
  | binary op l r ihl ihr =>
    intro levels hl
    cases levels with
    | zero => simp [ConstExpr.height] at hl
    | succ levels =>
      have hmax : max l.height r.height ≤ levels := Nat.le_of_succ_le_succ hl
      exact (reads_tag (b := 4) (a := ExprForm.binary) rfl).bind
        ((reads_tag op.ofTag?_tag).bind
          ((ihl h.1 (by omega)).bind ((ihr h.2 (by omega)).map (ConstExpr.binary op l))))

/-- Reading goes down the leftmost branch that is too deep, and stops there. -/
theorem ConstExpr.faults {e : ConstExpr} (h : e.Fits) :
    ∀ {levels : Nat}, levels < e.height →
      Faults (ConstExpr.reader levels) e.encode (.tooManyLevels maxLevels) := by
  induction e with
  | literal v =>
    intro levels hl
    obtain rfl : levels = 0 := Nat.lt_one_iff.1 hl
    exact faults_fail _ _
  | ref m n =>
    intro levels hl
    obtain rfl : levels = 0 := Nat.lt_one_iff.1 hl
    exact faults_fail _ _
  | negate e ih =>
    intro levels hl
    cases levels with
    | zero => exact faults_fail _ _
    | succ levels =>
      exact (reads_tag (b := 3) (a := ExprForm.negate) rfl).bind_faults
        ((ih h (Nat.lt_of_succ_lt_succ hl)).map ConstExpr.negate)
  | binary op l r ihl ihr =>
    intro levels hl
    cases levels with
    | zero => exact faults_fail _ _
    | succ levels =>
      have hmax : levels < max l.height r.height := Nat.lt_of_succ_lt_succ hl
      refine (reads_tag (b := 4) (a := ExprForm.binary) rfl).bind_faults
        ((reads_tag op.ofTag?_tag).bind_faults ?_)
      by_cases hleft : levels < l.height
      · exact (ihl h.1 hleft).bind _ _
      · exact (ConstExpr.reads h.1 (by omega)).bind_faults
          ((ihr h.2 (by omega)).map (ConstExpr.binary op l))

/-! ## Constants -/

theorem ConstDef.reads {c : ConstDef} (h : c.Fits) (hp : c.Proper) (hs : c.Shallow) :
    Reads ConstDef.reader c.encode c := by
  obtain ⟨name, kind, init⟩ := c
  refine (reads_string h.name).bind (kind.reads.bind ?_)
  cases init with
  | value v =>
    obtain rfl : v.kind = kind := hp v rfl
    have hvalue : Reads (Init.value <$> Value.reader v.kind) v.encode (.value v) :=
      (Value.reads h.init).map Init.value
    exact (reads_tag (b := 0) (a := false) rfl).bind (hvalue.map (ConstDef.mk name v.kind))
  | expr e =>
    have hexpr : Reads (Init.expr <$> ConstExpr.reader maxLevels) e.encode (.expr e) :=
      (ConstExpr.reads h.init (hs e rfl)).map Init.expr
    exact (reads_tag (b := 1) (a := true) rfl).bind (hexpr.map (ConstDef.mk name kind))

theorem ConstDef.faults {c : ConstDef} (h : c.Fits) (hs : ¬ c.Shallow) :
    Faults ConstDef.reader c.encode (.tooManyLevels maxLevels) := by
  obtain ⟨name, kind, init⟩ := c
  refine (reads_string h.name).bind_faults (kind.reads.bind_faults ?_)
  cases init with
  | value v => exact absurd (fun e he => nomatch he) hs
  | expr e =>
    have hdeep : maxLevels < e.height := by
      refine Nat.lt_of_not_le fun hle => hs fun e' he => ?_
      cases he
      exact hle
    have hexpr : Faults (Init.expr <$> ConstExpr.reader maxLevels) e.encode
        (.tooManyLevels maxLevels) := (ConstExpr.faults h.init hdeep).map Init.expr
    exact (reads_tag (b := 1) (a := true) rfl).bind_faults (hexpr.map (ConstDef.mk name kind))

/-! ## Interfaces -/

namespace Interface

theorem body_eq (i : Interface) :
    i.body = i.optimization.tag :: (str i.name ++ (list str i.references ++
      (list TypeDef.encode i.types ++ list ConstDef.encode i.constants))) := by
  simp only [body, List.append_assoc]

theorem reads {i : Interface} (h : i.Fits) (hp : i.Proper) (hs : i.Shallow) :
    Reads Interface.reader i.body i := by
  have hconstants : Reads ConstDef.reader.list (list ConstDef.encode i.constants) i.constants :=
    reads_list h.constantCount fun c hc =>
      ConstDef.reads (h.constants c hc) (hp.constants c hc) (hs c hc)
  have htypes : Reads (TypeDef.reader i.name).list (list TypeDef.encode i.types) i.types :=
    reads_list h.typeCount fun t ht => TypeDef.reads (h.types t ht) (hp.types t ht)
  have hreferences : Reads Reader.string.list (list str i.references) i.references :=
    reads_list h.referenceCount fun r hr => reads_string (h.references r hr)
  rw [body_eq]
  exact (reads_tag i.optimization.ofTag?_tag).bind ((reads_string h.name).bind
    (hreferences.bind (htypes.bind
      (hconstants.map (Interface.mk i.name i.optimization i.references i.types)))))

theorem faults {i : Interface} (h : i.Fits) (hp : i.Proper) (hs : ¬ i.Shallow) :
    Faults Interface.reader i.body (.tooManyLevels maxLevels) := by
  have hdeep : ∃ c ∈ i.constants, ¬ c.Shallow := by
    refine Classical.byContradiction fun hn => hs fun c hc => ?_
    exact Classical.byContradiction fun hc' => hn ⟨c, hc, hc'⟩
  have hconstants : Faults ConstDef.reader.list (list ConstDef.encode i.constants)
      (.tooManyLevels maxLevels) :=
    faults_list h.constantCount (fun c => ¬ c.Shallow)
      (fun c hc hg => ConstDef.reads (h.constants c hc) (hp.constants c hc) (Classical.not_not.1 hg))
      (fun c hc hb => ConstDef.faults (h.constants c hc) hb) hdeep
  have htypes : Reads (TypeDef.reader i.name).list (list TypeDef.encode i.types) i.types :=
    reads_list h.typeCount fun t ht => TypeDef.reads (h.types t ht) (hp.types t ht)
  have hreferences : Reads Reader.string.list (list str i.references) i.references :=
    reads_list h.referenceCount fun r hr => reads_string (h.references r hr)
  rw [body_eq]
  exact (reads_tag i.optimization.ofTag?_tag).bind_faults ((reads_string h.name).bind_faults
    (hreferences.bind_faults (htypes.bind_faults
      (hconstants.map (Interface.mk i.name i.optimization i.references i.types)))))

/--
The image of an interface reads back as it is, up to the depth of its initializers: one level too
many anywhere, and the image is refused for that.
-/
theorem decode_encode_of_proper (i : Interface) (h : i.Fits) (hp : i.Proper) :
    (i.Shallow → decode i.encode = .ok i) ∧
      (¬ i.Shallow → ∃ offset, decode i.encode = .error (.tooManyLevels maxLevels offset)) :=
  ⟨fun hs => unwrap_of_reads (reads h hp hs), fun hs => unwrap_of_faults (faults h hp hs)⟩

/-! ## On either side of the boundary -/

/-- A constant of another module under this many minuses. -/
def minuses : Nat → ConstExpr
  | 0 => .ref (some "B") "Y"
  | n + 1 => .negate (minuses n)

def underMinuses (n : Nat) : Interface :=
  { name := "A"
    optimization := .debug
    references := ["B"]
    types := [.make "A" "T" .sealed (some (.imported "B" "U")) [⟨"f", .builtin .int⟩]]
    constants := [⟨"X", .int, .expr (minuses n)⟩, ⟨"Z", .string, .value (.string "z")⟩] }

theorem height_minuses (n : Nat) : (minuses n).height = n + 1 := by
  induction n with
  | zero => rfl
  | succ n ih => rw [minuses, ConstExpr.height, ih]

theorem proper_underMinuses (n : Nat) : (underMinuses n).Proper where
  types := by
    intro t ht
    obtain rfl := List.mem_singleton.1 ht
    exact ⟨by decide, rfl⟩
  constants := by
    intro c hc v hv
    obtain rfl | hc := List.mem_cons.1 hc
    · cases hv
    · obtain rfl := List.mem_singleton.1 hc
      cases hv
      rfl

theorem shallow_underMinuses (n : Nat) : (underMinuses n).Shallow ↔ n < maxLevels := by
  constructor
  · intro h
    have := h _ List.mem_cons_self (minuses n) rfl
    rw [height_minuses] at this
    exact this
  · intro hn c hc e he
    obtain rfl | hc := List.mem_cons.1 hc
    · cases he
      rw [height_minuses]
      exact hn
    · obtain rfl := List.mem_singleton.1 hc
      cases he

theorem decode_encode_underMinuses :
    ((underMinuses 255).Fits ∧ (underMinuses 255).Proper ∧
      decode (underMinuses 255).encode = .ok (underMinuses 255)) ∧
    ((underMinuses 256).Fits ∧ (underMinuses 256).Proper ∧
      ∃ offset, decode (underMinuses 256).encode = .error (.tooManyLevels maxLevels offset)) := by
  have hfits : (underMinuses 255).Fits := by decide +kernel
  have hdeep : (underMinuses 256).Fits := by decide +kernel
  refine ⟨⟨hfits, proper_underMinuses 255, ?_⟩, hdeep, proper_underMinuses 256, ?_⟩
  · exact (decode_encode_of_proper _ hfits (proper_underMinuses 255)).1
      ((shallow_underMinuses 255).2 (by decide))
  · exact (decode_encode_of_proper _ hdeep (proper_underMinuses 256)).2
      fun h => absurd ((shallow_underMinuses 256).1 h) (by decide)

end Interface

end Linkage
