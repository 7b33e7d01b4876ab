import Linkage.Proofs.Interface.Decoded
import Linkage.Proofs.Wire.Canonical

/-!
# Linkage.Proofs.Interface.Canonical

Writing again what was read from an image, whoever wrote the image.

The readers are lenient in one place only: every byte but zero is a set flag, and the writers know
one byte for it. So the readers of images are said a second time, noting each flag that they read.

* `Noting` — a reader that notes the flags it reads, with their offsets.
* `reader_noting` — without the notes it is the reader of images.
* `Copy` — bytes that were read and bytes that are written, the same up to the flags noted.
* `encode_of_decode` — the image of what was read from an image.
-/

namespace Linkage

namespace Wire

open Reader

/-- A flag that was read: the offset of its byte and what it stood for. -/
structure Note where
  offset : Nat
  value : Bool
  deriving DecidableEq

/-! ## Readers that note flags -/

def Noting (α : Type) : Type := Reader (α × List Note)

namespace Noting

variable {α β : Type}

protected def pure (a : α) : Noting α := Reader.pure (a, [])

protected def bind (r : Noting α) (f : α → Noting β) : Noting β :=
  Reader.bind r fun p => Reader.bind (f p.1) fun q => Reader.pure (q.1, p.2 ++ q.2)

instance : Monad Noting where
  pure := Noting.pure
  bind := Noting.bind

/-- A reader of something without flags. -/
def quiet (r : Reader α) : Noting α := Reader.bind r fun a => Reader.pure (a, [])

def flag : Noting Bool := fun i =>
  match Reader.flag i with
  | .error e => .error e
  | .ok (b, j) => .ok ((b, [⟨i.offset, b⟩]), j)

def times (item : Noting α) : Nat → Noting (List α)
  | 0 => return []
  | n + 1 => do
    let a ← item
    let as ← times item n
    return a :: as

def list (item : Noting α) : Noting (List α) := do
  let n ← quiet (Reader.nat 4)
  times item n

/-- The reader without its notes. -/
def reader (r : Noting α) : Reader α := Reader.bind r fun p => Reader.pure p.1

@[simp] theorem reader_pure (a : α) : reader (pure a) = pure a := rfl

@[simp] theorem reader_bind (r : Noting α) (f : α → Noting β) :
    reader (r >>= f) = reader r >>= fun a => reader (f a) := by
  funext i
  show Reader.bind (Noting.bind r f) _ i = Reader.bind (Reader.bind r _) _ i
  unfold Noting.bind Reader.bind
  cases r i with
  | error e => rfl
  | ok p =>
    obtain ⟨⟨a, xs⟩, j⟩ := p
    show _ = Reader.bind (f a) _ j
    unfold Reader.bind
    dsimp only
    cases f a j with
    | error e => rfl
    | ok q => rfl

@[simp] theorem reader_quiet (r : Reader α) : reader (quiet r) = r := by
  funext i
  show Reader.bind (Reader.bind r _) _ i = r i
  unfold Reader.bind
  cases r i with
  | error e => rfl
  | ok p => rfl

@[simp] theorem reader_flag : reader flag = Reader.flag := by
  funext i
  show Reader.bind flag _ i = Reader.flag i
  unfold Reader.bind flag
  cases Reader.flag i with
  | error e => rfl
  | ok p => rfl

@[simp] theorem reader_ite (c : Bool) (r r' : Noting α) :
    reader (if c = true then r else r') = if c = true then reader r else reader r' := by
  cases c <;> rfl

@[simp] theorem reader_map (f : α → β) (r : Noting α) : reader (f <$> r) = f <$> reader r :=
  reader_bind r fun a => pure (f a)

/-- What the reader gives it gives with notes. -/
theorem of_reader {r : Noting α} {i j : Input} {a : α} (h : reader r i = .ok (a, j)) :
    ∃ notes, r i = .ok ((a, notes), j) := by
  change Reader.bind r _ i = .ok (a, j) at h
  unfold Reader.bind at h
  split at h
  · cases h
  · rename_i p k hr
    cases h
    exact ⟨p.2, hr⟩

theorem reader_times (item : Noting α) (n : Nat) :
    reader (times item n) = Reader.times (reader item) n := by
  induction n with
  | zero => rfl
  | succ n ih => simp only [times, Reader.times, reader_bind, reader_pure, ih]

@[simp] theorem reader_list (item : Noting α) : reader (list item) = Reader.list (reader item) := by
  simp only [list, Reader.list, reader_bind, reader_quiet, reader_times]

end Noting

end Wire

open Wire
open Wire.Reader

/-! ## Images -/

def Value.noting : Kind → Noting Value
  | .bool => return .bool (← Noting.flag)
  | kind => .quiet (Value.reader kind)

def ConstExpr.noting : Nat → Noting ConstExpr
  | 0 => .quiet (.fail (.tooManyLevels maxLevels))
  | levels + 1 => do
    match ← Noting.quiet (.tag "expression" ExprForm.ofTag?) with
    | .literal =>
      let kind ← Noting.quiet Kind.reader
      return .literal (← Value.noting kind)
    | .own => return .ref none (← Noting.quiet .string)
    | .imported =>
      let module ← Noting.quiet .string
      let name ← Noting.quiet .string
      return .ref (some module) name
    | .negate => return .negate (← ConstExpr.noting levels)
    | .binary =>
      let op ← Noting.quiet (.tag "binary operator" Operator.ofTag?)
      let lhs ← ConstExpr.noting levels
      let rhs ← ConstExpr.noting levels
      return .binary op lhs rhs

def TypeDef.noting (module : String) : Noting TypeDef := do
  let name ← Noting.quiet .string
  let modifiers ← Noting.quiet (.tag "type flags" Modifiers.ofBits?)
  let base ← if ← Noting.flag then Noting.quiet (some <$> TypeRef.reader) else pure none
  let fields ← Noting.quiet (.list Field.reader)
  return .make module name modifiers base fields

def ConstDef.noting : Noting ConstDef := do
  let name ← Noting.quiet .string
  let kind ← Noting.quiet Kind.reader
  let isExpr ← Noting.quiet (.tag "constant init" Init.isExprOfTag?)
  let init ← if isExpr then Init.expr <$> ConstExpr.noting maxLevels
    else Init.value <$> Value.noting kind
  return ⟨name, kind, init⟩

def Interface.noting : Noting Interface := do
  let optimization ← Noting.quiet (.tag "optimization level" Optimization.ofTag?)
  let name ← Noting.quiet .string
  let references ← Noting.quiet (.list .string)
  let types ← Noting.list (TypeDef.noting name)
  let constants ← Noting.list ConstDef.noting
  return ⟨name, optimization, references, types, constants⟩

open Noting

@[simp] theorem Value.reader_noting (kind : Kind) :
    (Value.noting kind).reader = Value.reader kind := by
  cases kind with
  | bool => simp [Value.noting, Value.reader]
  | int => exact reader_quiet _
  | float => exact reader_quiet _
  | string => exact reader_quiet _

@[simp] theorem ConstExpr.reader_noting (levels : Nat) :
    (ConstExpr.noting levels).reader = ConstExpr.reader levels := by
  induction levels with
  | zero => exact reader_quiet _
  | succ levels ih =>
    rw [ConstExpr.noting, ConstExpr.reader, reader_bind, reader_quiet]
    congr 1
    funext form
    cases form <;> simp [ih]

@[simp] theorem TypeDef.reader_noting (module : String) :
    (TypeDef.noting module).reader = TypeDef.reader module := by
  simp [TypeDef.noting, TypeDef.reader]

@[simp] theorem ConstDef.reader_noting : ConstDef.noting.reader = ConstDef.reader := by
  simp [ConstDef.noting, ConstDef.reader]

theorem Interface.reader_noting : Interface.noting.reader = Interface.reader := by
  simp [Interface.noting, Interface.reader]

/-! ## Copies -/

namespace Wire

/--
`bs` was read from offset `n` on with these notes, and `es` is written for it: the same bytes, but
0 or 1 for each flag.
-/
structure Copy (n : Nat) (bs es : Bytes) (notes : List Note) : Prop where
  length : es.length = bs.length
  inside : ∀ x ∈ notes, n ≤ x.offset ∧ x.offset < n + bs.length
  flags : ∀ x ∈ notes, es[x.offset - n]? = some (if x.value then 1 else 0) ∧
    ∃ b, bs[x.offset - n]? = some b ∧ (b != 0) = x.value
  others : ∀ k, (∀ x ∈ notes, x.offset ≠ n + k) → es[k]? = bs[k]?

theorem Copy.same (n : Nat) (bs : Bytes) : Copy n bs bs [] where
  length := rfl
  inside := fun _ h => nomatch h
  flags := fun _ h => nomatch h
  others := fun _ _ => rfl

theorem Copy.flag (n : Nat) {b : UInt8} {v : Bool} (h : v = (b != 0)) :
    Copy n [b] (Wire.flag v) [⟨n, v⟩] where
  length := rfl
  inside := by simp
  flags := by simp [Wire.flag, h]
  others := by
    intro k hk
    have hpos : k ≠ 0 := by
      rintro rfl
      exact hk _ List.mem_cons_self rfl
    obtain ⟨k, rfl⟩ := Nat.exists_eq_succ_of_ne_zero hpos
    rfl

/-- A copy of one piece and a copy of the piece after it are a copy of both. -/
theorem Copy.append {n : Nat} {bs cs es fs : Bytes} {xs ys : List Note} (h : Copy n bs es xs)
    (h' : Copy (n + bs.length) cs fs ys) : Copy n (bs ++ cs) (es ++ fs) (xs ++ ys) where
  length := by simp [h.length, h'.length]
  inside := by
    intro x hx
    rw [List.length_append]
    rcases List.mem_append.1 hx with hx | hx
    · have := h.inside x hx
      omega
    · have := h'.inside x hx
      omega
  flags := by
    intro x hx
    rcases List.mem_append.1 hx with hx | hx
    · have hin := h.inside x hx
      rw [List.getElem?_append_left (by rw [h.length]; omega), List.getElem?_append_left (by omega)]
      exact h.flags x hx
    · have hin := h'.inside x hx
      have hplace : x.offset - n - bs.length = x.offset - (n + bs.length) := by omega
      rw [List.getElem?_append_right (by rw [h.length]; omega),
        List.getElem?_append_right (by omega), h.length, hplace]
      exact h'.flags x hx
  others := by
    intro k hk
    have hxs : ∀ x ∈ xs, x.offset ≠ n + k := fun x hx => hk x (List.mem_append_left ys hx)
    by_cases hlow : k < bs.length
    · rw [List.getElem?_append_left (by rw [h.length]; omega), List.getElem?_append_left hlow]
      exact h.others k hxs
    · rw [List.getElem?_append_right (by rw [h.length]; omega),
        List.getElem?_append_right (by omega), h.length]
      refine h'.others _ fun x hx heq => hk x (List.mem_append_right xs hx) ?_
      omega

/-- A copy is exact if every flag in what was read is 0 or 1. -/
theorem Copy.eq_iff {n : Nat} {bs es : Bytes} {notes : List Note} (h : Copy n bs es notes) :
    es = bs ↔ ∀ x ∈ notes, bs[x.offset - n]? = some 0 ∨ bs[x.offset - n]? = some 1 := by
  constructor
  · rintro rfl x hx
    rw [(h.flags x hx).1]
    cases x.value with
    | false => exact .inl rfl
    | true => exact .inr rfl
  · intro hflags
    refine List.ext_getElem? fun k => ?_
    by_cases hk : ∃ x ∈ notes, x.offset = n + k
    · obtain ⟨x, hx, hoffset⟩ := hk
      have hplace : x.offset - n = k := by omega
      obtain ⟨hes, b, hb, hvalue⟩ := h.flags x hx
      have hb' := hflags x hx
      rw [hplace] at hes hb hb'
      rw [hb] at hb'
      rw [hes, hb, ← hvalue]
      rcases hb' with hb' | hb'
      · cases hb'
        rfl
      · cases hb'
        rfl
    · exact h.others k fun x hx heq => hk ⟨x, hx, heq⟩

namespace Noting

variable {α β : Type}

/-- What a reader takes, with its notes, and what it gives are related. -/
def Takes (r : Noting α) (P : Nat → Bytes → List Note → α → Prop) : Prop :=
  Reader.Takes r fun n bs p => P n bs p.2 p.1

variable {r : Noting α} {P : Nat → Bytes → List Note → α → Prop}

theorem takes_pure {a : α} (h : ∀ n, P n [] [] a) : Takes (pure a) P :=
  Reader.takes_pure (a := (a, [])) h

theorem Takes.bind {f : α → Noting β} {Q : Nat → Bytes → List Note → β → Prop} (hr : Takes r P)
    (hf : ∀ a, Takes (f a) fun m cs ys b => ∀ n bs xs, P n bs xs a → m = n + bs.length →
      Q n (bs ++ cs) (xs ++ ys) b) : Takes (r >>= f) Q := by
  refine Reader.Takes.bind hr fun p => Reader.Takes.bind (hf p.1) fun q => Reader.takes_pure ?_
  intro _ m cs hQ _ n bs hP hm
  rw [List.append_nil]
  exact hQ n bs p.2 hP hm

theorem Takes.map {f : α → β} {Q : Nat → Bytes → List Note → β → Prop} (hr : Takes r P)
    (hf : ∀ n bs xs a, P n bs xs a → Q n bs xs (f a)) : Takes (f <$> r) Q := by
  refine Takes.bind hr fun a => takes_pure fun _ n bs xs hP _ => ?_
  rw [List.append_nil, List.append_nil]
  exact hf n bs xs a hP

theorem takes_quiet {r : Reader α} {P : Nat → Bytes → α → Prop} (h : Reader.Takes r P) :
    Takes (quiet r) fun n bs xs a => xs = [] ∧ P n bs a := by
  refine Reader.Takes.bind h fun a => Reader.takes_pure ?_
  intro _ n bs hP _
  rw [List.append_nil]
  exact ⟨rfl, hP⟩

theorem Takes.mono {Q : Nat → Bytes → List Note → α → Prop} (h : Takes r P)
    (hPQ : ∀ n bs xs a, P n bs xs a → Q n bs xs a) : Takes r Q :=
  Reader.Takes.mono h fun n bs p => hPQ n bs p.2 p.1

/-- What was read can be written again, its flags are those noted, and it satisfies `Q`. -/
structure Rewritten (encode : α → Bytes) (truths : α → List Bool) (Q : α → Prop) (n : Nat)
    (bs : Bytes) (notes : List Note) (a : α) : Prop where
  copy : Copy n bs (encode a) notes
  truths : notes.map (·.value) = truths a
  fits : Q a

theorem takes_flag : Takes flag fun n bs xs b =>
    ∃ x : UInt8, bs = [x] ∧ b = (x != 0) ∧ xs = [⟨n, b⟩] := by
  intro i p k h
  unfold flag at h
  split at h
  · cases h
  · rename_i b j hb
    cases h
    have hflag : Reader.Takes Reader.flag fun _ bs b => ∃ x : UInt8, bs = [x] ∧ b = (x != 0) := by
      refine Reader.Takes.bind takes_byte fun x => Reader.takes_pure ?_
      rintro _ _ _ rfl -
      exact ⟨x, rfl, rfl⟩
    obtain ⟨bs, hrest, hoffset, x, hbs, hx⟩ := hflag i b _ hb
    exact ⟨bs, hrest, hoffset, x, hbs, hx, rfl⟩

section

variable {item : Noting α} {encode : α → Bytes} {truths : α → List Bool} {Q : α → Prop}

theorem takes_times (h : Takes item (Rewritten encode truths Q)) (n : Nat) :
    Takes (times item n) (Rewritten (·.flatMap encode) (·.flatMap truths)
      fun as => as.length = n ∧ ∀ a ∈ as, Q a) := by
  induction n with
  | zero => exact takes_pure fun n => ⟨.same n [], rfl, rfl, fun _ ha => nomatch ha⟩
  | succ n ih =>
    refine h.bind fun a => ih.bind fun as => takes_pure ?_
    rintro _ _ bs xs ⟨hcopies, htruths, rfl, has⟩ rfl _ cs ys ⟨hcopy, htruth, ha⟩ rfl
    rw [List.append_nil, List.append_nil]
    refine ⟨hcopy.append hcopies, ?_, rfl, List.forall_mem_cons.2 ⟨ha, has⟩⟩
    rw [List.map_append, htruth, htruths, List.flatMap_cons]

theorem takes_list (h : Takes item (Rewritten encode truths Q)) :
    Takes (list item) (Rewritten (Wire.list encode) (·.flatMap truths)
      fun as => as.length < countLimit ∧ ∀ a ∈ as, Q a) := by
  refine (takes_quiet takes_count).bind fun n => Takes.mono (takes_times h n) ?_
  rintro _ bs xs as ⟨hcopies, htruths, rfl, has⟩ _ _ _ ⟨rfl, rfl, hlt⟩ rfl
  exact ⟨(Copy.same _ _).append hcopies, htruths, hlt, has⟩

end

end Noting

end Wire

/-! ## Tags -/

theorem Kind.tag_of_ofTag? {b : UInt8} {k : Kind} (h : Kind.ofTag? b = some k) : k.tag = b := by
  unfold Kind.ofTag? at h
  split at h <;> cases h <;> rfl

theorem Optimization.tag_of_ofTag? {b : UInt8} {o : Optimization}
    (h : Optimization.ofTag? b = some o) : o.tag = b := by
  unfold Optimization.ofTag? at h
  split at h <;> cases h <;> rfl

theorem Operator.tag_of_ofTag? {b : UInt8} {op : Operator} (h : Operator.ofTag? b = some op) :
    op.tag = b := by
  unfold Operator.ofTag? at h
  split at h <;> cases h <;> rfl

theorem Modifiers.bits_of_ofBits? {b : UInt8} {m : Modifiers} (h : Modifiers.ofBits? b = some m) :
    m.bits = b := by
  unfold Modifiers.ofBits? at h
  split at h
  · cases h
    rfl
  · cases h

def RefForm.tag : RefForm → UInt8
  | .builtin => 0
  | .own => 1
  | .imported => 2

theorem RefForm.tag_of_ofTag? {b : UInt8} {form : RefForm} (h : RefForm.ofTag? b = some form) :
    b = form.tag := by
  unfold RefForm.ofTag? at h
  split at h <;> cases h <;> rfl

def ExprForm.tag : ExprForm → UInt8
  | .literal => 0
  | .own => 1
  | .imported => 2
  | .negate => 3
  | .binary => 4

theorem ExprForm.tag_of_ofTag? {b : UInt8} {form : ExprForm} (h : ExprForm.ofTag? b = some form) :
    b = form.tag := by
  unfold ExprForm.ofTag? at h
  split at h <;> cases h <;> rfl

theorem Init.tag_of_isExprOfTag? {b : UInt8} {isExpr : Bool}
    (h : Init.isExprOfTag? b = some isExpr) : b = if isExpr then 1 else 0 := by
  unfold Init.isExprOfTag? at h
  split at h <;> cases h <;> rfl

/-! ## Parts without flags -/

theorem Kind.takes : Reader.Takes Kind.reader fun _ bs k => bs = [k.tag] :=
  (takes_tag _ _).mono fun _ _ _ ⟨_, hbs, hk⟩ => by rw [hbs, Kind.tag_of_ofTag? hk]

theorem TypeRef.takes : Reader.Takes TypeRef.reader fun _ bs t => bs = t.encode ∧ t.Fits := by
  refine (takes_tag _ _).bind fun form => ?_
  cases form with
  | builtin =>
    refine (takes_tag _ _).bind fun kind => Reader.takes_pure ?_
    rintro _ _ _ ⟨b, rfl, hkind⟩ - _ _ ⟨c, rfl, hform⟩ -
    obtain rfl := RefForm.tag_of_ofTag? hform
    rw [← Kind.tag_of_ofTag? hkind]
    exact ⟨rfl, trivial⟩
  | own =>
    refine takes_string.bind fun name => Reader.takes_pure ?_
    rintro _ _ _ ⟨rfl, hname⟩ - _ _ ⟨c, rfl, hform⟩ -
    obtain rfl := RefForm.tag_of_ofTag? hform
    rw [List.append_nil]
    exact ⟨rfl, hname⟩
  | imported =>
    refine takes_string.bind fun module => takes_string.bind fun name => Reader.takes_pure ?_
    rintro _ _ _ ⟨rfl, hname⟩ - _ _ ⟨rfl, hmodule⟩ - _ _ ⟨c, rfl, hform⟩ -
    obtain rfl := RefForm.tag_of_ofTag? hform
    rw [List.append_nil]
    exact ⟨rfl, hmodule, hname⟩

theorem Field.takes : Reader.Takes Field.reader fun _ bs f => bs = f.encode ∧ f.Fits := by
  refine takes_string.bind fun name => TypeRef.takes.bind fun type => Reader.takes_pure ?_
  rintro _ _ _ ⟨rfl, htype⟩ - _ _ ⟨rfl, hname⟩ -
  rw [List.append_nil]
  exact ⟨rfl, hname, htype⟩

/-! ## Parts with flags -/

def Value.truths : Value → List Bool
  | .bool b => [b]
  | _ => []

def ConstExpr.truths : ConstExpr → List Bool
  | .literal v => v.truths
  | .ref _ _ => []
  | .negate e => e.truths
  | .binary _ l r => l.truths ++ r.truths

def Init.truths : Init → List Bool
  | .value v => v.truths
  | .expr e => e.truths

/-- What the flags in an image stand for: whether a type has a base, and the truth values. -/
def Interface.truths (i : Interface) : List Bool :=
  i.types.map (·.base.isSome) ++ i.constants.flatMap (·.init.truths)

theorem Value.takes (kind : Kind) : Noting.Takes (Value.noting kind)
    (Rewritten Value.encode Value.truths fun v => v.kind = kind ∧ v.Fits) := by
  cases kind with
  | bool =>
    refine takes_flag.bind fun b => Noting.takes_pure ?_
    rintro _ n _ _ ⟨x, rfl, rfl, rfl⟩ -
    exact ⟨.flag n rfl, rfl, rfl, trivial⟩
  | int =>
    have hint : Reader.Takes (Value.reader .int) fun _ bs v =>
        ∃ i : Int64, v = .int i ∧ bs = Wire.u64 i.toUInt64 := by
      refine takes_u64.bind fun w => Reader.takes_pure ?_
      rintro _ _ _ rfl -
      exact ⟨w.toInt64, rfl, by simp⟩
    refine (takes_quiet hint).mono ?_
    rintro n _ _ _ ⟨rfl, i, rfl, rfl⟩
    exact ⟨.same n _, rfl, rfl, trivial⟩
  | float =>
    have hfloat : Reader.Takes (Value.reader .float) fun _ bs v =>
        ∃ w : UInt64, v = .float ⟨w⟩ ∧ bs = Wire.u64 w := by
      refine takes_u64.bind fun w => Reader.takes_pure ?_
      rintro _ _ _ rfl -
      exact ⟨w, rfl, by simp⟩
    refine (takes_quiet hfloat).mono ?_
    rintro n _ _ _ ⟨rfl, w, rfl, rfl⟩
    exact ⟨.same n _, rfl, rfl, trivial⟩
  | string =>
    have hstring : Reader.Takes (Value.reader .string) fun _ bs v =>
        ∃ s : String, v = .string s ∧ bs = str s ∧ Text.Fits s := by
      refine takes_string.bind fun s => Reader.takes_pure ?_
      rintro _ _ _ ⟨rfl, hs⟩ -
      exact ⟨s, rfl, by simp, hs⟩
    refine (takes_quiet hstring).mono ?_
    rintro n _ _ _ ⟨rfl, s, rfl, rfl, hs⟩
    exact ⟨.same n _, rfl, rfl, hs⟩

/-- By induction on the levels; each form writes its tag and then its parts in order. -/
theorem ConstExpr.takes (levels : Nat) : Noting.Takes (ConstExpr.noting levels)
    (Rewritten ConstExpr.encode ConstExpr.truths ConstExpr.Fits) := by
  induction levels with
  | zero => exact Noting.Takes.mono (takes_quiet (takes_fail _ fun _ _ _ => False)) (by simp)
  | succ levels ih =>
    refine (takes_quiet (takes_tag _ _)).bind fun form => ?_
    cases form with
    | literal =>
      refine (takes_quiet Kind.takes).bind fun kind => (Value.takes kind).bind fun v =>
        Noting.takes_pure ?_
      rintro _ _ bs xs ⟨hcopy, htruths, rfl, hv⟩ rfl _ _ _ ⟨rfl, rfl⟩ rfl n _ _
        ⟨rfl, b, rfl, hform⟩ rfl
      obtain rfl := ExprForm.tag_of_ofTag? hform
      rw [List.append_nil, List.append_nil]
      exact ⟨(Copy.same _ [_]).append ((Copy.same _ [_]).append hcopy), htruths, hv⟩
    | own =>
      refine (takes_quiet takes_string).bind fun name => Noting.takes_pure ?_
      rintro _ _ _ _ ⟨rfl, rfl, hname⟩ rfl n _ _ ⟨rfl, b, rfl, hform⟩ rfl
      obtain rfl := ExprForm.tag_of_ofTag? hform
      rw [List.append_nil]
      exact ⟨.same n _, rfl, hname⟩
    | imported =>
      refine (takes_quiet takes_string).bind fun module => (takes_quiet takes_string).bind
        fun name => Noting.takes_pure ?_
      rintro _ _ _ _ ⟨rfl, rfl, hname⟩ rfl _ _ _ ⟨rfl, rfl, hmodule⟩ rfl n _ _
        ⟨rfl, b, rfl, hform⟩ rfl
      obtain rfl := ExprForm.tag_of_ofTag? hform
      rw [List.append_nil]
      exact ⟨.same n _, rfl, hmodule, hname⟩
    | negate =>
      refine ih.bind fun e => Noting.takes_pure ?_
      rintro _ _ bs xs ⟨hcopy, htruths, he⟩ rfl n _ _ ⟨rfl, b, rfl, hform⟩ rfl
      obtain rfl := ExprForm.tag_of_ofTag? hform
      rw [List.append_nil, List.append_nil]
      exact ⟨(Copy.same _ [_]).append hcopy, htruths, he⟩
    | binary =>
      refine (takes_quiet (takes_tag _ _)).bind fun op => ih.bind fun l => ih.bind fun r =>
        Noting.takes_pure ?_
      rintro _ _ cs ys ⟨hright, hrights, hr⟩ rfl _ bs xs ⟨hleft, hlefts, hl⟩ rfl _ _ _
        ⟨rfl, c, rfl, hop⟩ rfl n _ _ ⟨rfl, b, rfl, hform⟩ rfl
      obtain rfl := ExprForm.tag_of_ofTag? hform
      obtain rfl := Operator.tag_of_ofTag? hop
      rw [List.append_nil, List.append_nil]
      refine ⟨(Copy.same _ [_]).append ((Copy.same _ [_]).append (hleft.append hright)), ?_, hl, hr⟩
      simp [ConstExpr.truths, hlefts, hrights]

theorem TypeDef.takes (module : String) : Noting.Takes (TypeDef.noting module)
    (Rewritten TypeDef.encode (fun t => [t.base.isSome]) TypeDef.Fits) := by
  refine (takes_quiet takes_string).bind fun name => (takes_quiet (takes_tag _ _)).bind
    fun modifiers => takes_flag.bind fun based => ?_
  have hfields : Noting.Takes (Noting.quiet (.list Field.reader)) fun _ bs xs fs => xs = [] ∧
      bs = Wire.list Field.encode fs ∧ fs.length < countLimit ∧ ∀ f ∈ fs, f.Fits :=
    takes_quiet (Reader.takes_list Field.takes)
  cases based with
  | true =>
    have hbase : Noting.Takes (Noting.quiet (some <$> TypeRef.reader)) fun _ bs xs b => xs = [] ∧
        ∃ t : TypeRef, b = some t ∧ bs = t.encode ∧ t.Fits :=
      takes_quiet (TypeRef.takes.map fun _ bs t h => ⟨t, rfl, h⟩)
    refine hbase.bind fun base => hfields.bind fun fields => Noting.takes_pure ?_
    rintro _ _ _ _ ⟨rfl, rfl, hcount, hfields⟩ rfl _ _ _ ⟨rfl, b, rfl, rfl, hb⟩ rfl _ _ _
      ⟨x, rfl, hx, rfl⟩ rfl _ _ _ ⟨rfl, c, rfl, hm⟩ rfl n _ _ ⟨rfl, rfl, hname⟩ rfl
    obtain rfl := Modifiers.bits_of_ofBits? hm
    rw [List.append_nil, List.append_nil]
    have hcopy := (Copy.same n (str name)).append ((Copy.same _ [modifiers.bits]).append
      ((Copy.flag _ hx).append (Copy.same _ (b.encode ++ Wire.list Field.encode fields))))
    refine ⟨?_, rfl, hname, ?_, hcount, hfields⟩
    · simpa [TypeDef.encode, TypeDef.make] using hcopy
    · rintro _ ⟨⟩
      exact hb
  | false =>
    refine (Noting.takes_pure (P := fun _ bs xs b => bs = [] ∧ xs = [] ∧ b = none)
      fun _ => ⟨rfl, rfl, rfl⟩).bind fun base => hfields.bind fun fields => Noting.takes_pure ?_
    rintro _ _ _ _ ⟨rfl, rfl, hcount, hfields⟩ rfl _ _ _ ⟨rfl, rfl, rfl⟩ rfl _ _ _
      ⟨x, rfl, hx, rfl⟩ rfl _ _ _ ⟨rfl, c, rfl, hm⟩ rfl n _ _ ⟨rfl, rfl, hname⟩ rfl
    obtain rfl := Modifiers.bits_of_ofBits? hm
    rw [List.append_nil, List.append_nil]
    have hcopy := (Copy.same n (str name)).append ((Copy.same _ [modifiers.bits]).append
      ((Copy.flag _ hx).append (Copy.same _ (Wire.list Field.encode fields))))
    refine ⟨?_, rfl, hname, nofun, hcount, hfields⟩
    simpa [TypeDef.encode, TypeDef.make] using hcopy

theorem ConstDef.takes : Noting.Takes ConstDef.noting
    (Rewritten ConstDef.encode (·.init.truths) ConstDef.Fits) := by
  refine (takes_quiet takes_string).bind fun name => (takes_quiet Kind.takes).bind fun kind =>
    (takes_quiet (takes_tag _ _)).bind fun isExpr => ?_
  cases isExpr with
  | true =>
    have hinit : Noting.Takes (Init.expr <$> ConstExpr.noting maxLevels) fun n bs xs init =>
        ∃ e, init = .expr e ∧
          Rewritten ConstExpr.encode ConstExpr.truths ConstExpr.Fits n bs xs e :=
      (ConstExpr.takes maxLevels).map fun n bs xs e he => ⟨e, rfl, he⟩
    refine hinit.bind fun init => Noting.takes_pure ?_
    rintro _ _ bs xs ⟨e, rfl, hcopy, htruths, he⟩ rfl _ _ _ ⟨rfl, b, rfl, hform⟩ rfl _ _ _
      ⟨rfl, rfl⟩ rfl n _ _ ⟨rfl, rfl, hname⟩ rfl
    obtain rfl := Init.tag_of_isExprOfTag? hform
    rw [List.append_nil, List.append_nil]
    exact ⟨(Copy.same n _).append ((Copy.same _ [_]).append ((Copy.same _ [_]).append hcopy)),
      htruths, hname, he⟩
  | false =>
    have hinit : Noting.Takes (Init.value <$> Value.noting kind) fun n bs xs init =>
        ∃ v, init = .value v ∧ Rewritten Value.encode Value.truths
          (fun v => v.kind = kind ∧ v.Fits) n bs xs v :=
      (Value.takes kind).map fun n bs xs v hv => ⟨v, rfl, hv⟩
    refine hinit.bind fun init => Noting.takes_pure ?_
    rintro _ _ bs xs ⟨v, rfl, hcopy, htruths, -, hv⟩ rfl _ _ _ ⟨rfl, b, rfl, hform⟩ rfl _ _ _
      ⟨rfl, rfl⟩ rfl n _ _ ⟨rfl, rfl, hname⟩ rfl
    obtain rfl := Init.tag_of_isExprOfTag? hform
    rw [List.append_nil, List.append_nil]
    exact ⟨(Copy.same n _).append ((Copy.same _ [_]).append ((Copy.same _ [_]).append hcopy)),
      htruths, hname, hv⟩

namespace Interface

theorem takes : Noting.Takes Interface.noting
    (Rewritten Interface.body Interface.truths Interface.Fits) := by
  refine (takes_quiet (takes_tag _ _)).bind fun optimization => (takes_quiet takes_string).bind
    fun name => (takes_quiet (Reader.takes_list takes_string)).bind fun references =>
      (Noting.takes_list (TypeDef.takes name)).bind fun types =>
        (Noting.takes_list ConstDef.takes).bind fun constants => Noting.takes_pure ?_
  rintro _ _ cs ys ⟨hconsts, hconstTruths, hconstCount, hconstants⟩ rfl _ bs xs
    ⟨htypes, htypeTruths, htypeCount, htypesFit⟩ rfl _ _ _
    ⟨rfl, rfl, hreferenceCount, hreferences⟩ rfl _ _ _ ⟨rfl, rfl, hname⟩ rfl n _ _
    ⟨rfl, b, rfl, hoptimization⟩ rfl
  obtain rfl := Optimization.tag_of_ofTag? hoptimization
  rw [List.append_nil, List.append_nil]
  have hcopy := (Copy.same n [optimization.tag]).append ((Copy.same _ (str name)).append
    ((Copy.same _ (Wire.list str references)).append (htypes.append hconsts)))
  refine ⟨?_, ?_, hname, hreferenceCount, hreferences, htypeCount, htypesFit, hconstCount,
    hconstants⟩
  · rw [body_eq]
    exact hcopy
  · simp only [List.nil_append, List.map_append, htypeTruths, hconstTruths]
    rw [← List.map_eq_flatMap]
    rfl

/-- Reads an image and notes the flags in it. -/
def decodeNoting (bs : Bytes) : Except FormatError (Interface × List Note) :=
  format.unwrap Interface.noting bs

/-- Reading is noting, without the notes. -/
theorem exists_decodeNoting {bs : Bytes} {i : Interface} (h : decode bs = .ok i) :
    ∃ notes, decodeNoting bs = .ok (i, notes) := by
  obtain ⟨content, rfl, hwhole⟩ := unwrap_eq_ok.1 h
  obtain ⟨j, hread, hrest⟩ := whole_eq_ok.1 hwhole
  rw [← reader_noting] at hread
  obtain ⟨notes, hnoting⟩ := of_reader hread
  exact ⟨notes, unwrap_eq_ok.2 ⟨content, rfl, whole_eq_ok.2 ⟨j, hnoting, hrest⟩⟩⟩

/-- All of a buffer but the eight bytes of its checksum. -/
def summed (bs : Bytes) : Bytes := bs.take (bs.length - 8)

theorem summed_envelope (content : Bytes) :
    summed (format.envelope content) = format.magic ++ u16 format.version ++ content :=
  take_envelope format content

/-- Two images are the same if they are so up to their checksums. -/
theorem envelope_eq_iff {content content' : Bytes} :
    format.envelope content = format.envelope content' ↔
      summed (format.envelope content) = summed (format.envelope content') := by
  constructor
  · exact congrArg summed
  · intro h
    rw [summed_envelope, summed_envelope] at h
    rw [List.append_cancel_left h]

/--
Whatever was read from an image, its own image is a copy of that one: as long, read as the same,
and with the same bytes but for the checksum and the flags, which are 0 or 1 there. There is a flag
for each type, whether it has a base, and one for each truth value. So the two are the same if all
flags were 0 or 1 before.
-/
theorem encode_of_decode {bs : Bytes} {i : Interface} (h : decode bs = .ok i) :
    ∃ notes, decodeNoting bs = .ok (i, notes) ∧ notes.map (·.value) = i.truths ∧
      i.encode.length = bs.length ∧ decode i.encode = .ok i ∧
      Copy 0 (summed bs) (summed i.encode) notes ∧
      (i.encode = bs ↔ ∀ x ∈ notes, bs[x.offset]? = some 0 ∨ bs[x.offset]? = some 1) := by
  obtain ⟨notes, hnoting⟩ := exists_decodeNoting h
  obtain ⟨hproper, hshallow⟩ := sound_of_decode h
  obtain ⟨content, rfl, hwhole⟩ := unwrap_eq_ok.1 hnoting
  obtain ⟨hbody, htruths, hfits⟩ := Reader.Takes.whole takes hwhole
  have hcopy : Copy 0 (summed (format.envelope content)) (summed i.encode) notes := by
    rw [encode, summed_envelope, summed_envelope]
    exact (Copy.same 0 _).append hbody
  refine ⟨notes, hnoting, htruths, ?_, unwrap_of_reads (reads hfits hproper hshallow), hcopy, ?_⟩
  · rw [encode, length_envelope, length_envelope]
    simp [hbody.length]
  · rw [encode, envelope_eq_iff, ← encode, hcopy.eq_iff]
    refine forall₂_congr fun x hx => ?_
    have hinside := (hcopy.inside x hx).2
    rw [Nat.zero_add] at hinside
    have hbyte : (summed (format.envelope content))[x.offset - 0]? =
        (format.envelope content)[x.offset]? :=
      List.getElem?_take_of_lt (Nat.lt_of_lt_of_le hinside (List.length_take_le _ _))
    rw [hbyte]

/-- The bytes between the version and the checksum of an image that no encoder writes: the flags of
the base and of the truth value are 2 and 255. -/
def looseBody : Bytes :=
  [Optimization.release.tag] ++ str "M" ++ list str [] ++
    (count 1 ++ str "T" ++ [Modifiers.sealed.bits, 2] ++ (TypeRef.own "U").encode ++ count 0) ++
    (count 1 ++ str "c" ++ [Kind.bool.tag, 0, 255])

def loose : Interface :=
  { name := "M"
    optimization := .release
    references := []
    types := [.make "M" "T" .sealed (some (.own "U")) []]
    constants := [⟨"c", .bool, .value (.bool true)⟩] }

theorem encode_of_decode_loose :
    decode (format.envelope looseBody) = .ok loose ∧ loose.encode ≠ format.envelope looseBody ∧
      loose.encode.length = (format.envelope looseBody).length ∧
      ∃ notes, decodeNoting (format.envelope looseBody) = .ok (loose, notes) ∧
        Copy 0 (summed (format.envelope looseBody)) (summed loose.encode) notes := by
  have hdecode : decode (format.envelope looseBody) = .ok loose :=
    unwrap_eq_ok.2 ⟨looseBody, rfl, by rfl⟩
  have hne : loose.encode ≠ format.envelope looseBody := by
    decide +kernel
  obtain ⟨notes, hnotes, -, hlength, -, hcopy, -⟩ := encode_of_decode hdecode
  exact ⟨hdecode, hne, hlength, notes, hnotes, hcopy⟩

end Interface

end Linkage
