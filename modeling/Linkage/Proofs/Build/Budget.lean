import Linkage.Proofs.Build.Agreement
import Linkage.Proofs.Build.External

/-!
# Linkage.Proofs.Build.Budget

The values of a snapshot's constants at compile time and at run time.

* `Snapshot.Levels m e n` — looking for the value of `e` goes down `n` levels: those of the
  expression and of whatever it refers to.
* `Snapshot.Affordable` — a compile has the levels that the initializer of a constant takes.
* `Resolver.Presents` — a resolver has the modules of the snapshot, and no others.
* `evaluate_iff_derives` — evaluation gives the value that there is a derivation of, however long.
* `constValue?_iff_evaluate` — and a compile finds the same value if it is affordable.
* `chain_over_budget` — a chain of references that is one too long for it.
-/

namespace Linkage

open Evaluation

namespace Snapshot

inductive Levels (s : Snapshot) : String → ConstExpr → Nat → Prop where
  | literal {m : String} {v : Value} : Levels s m (.literal v) 1
  | stored {m : String} {q : Option String} {x : String} {c : ConstDef} {v : Value} :
      s.const? (q.getD m) x = some c → c.init = .value v → Levels s m (.ref q x) 1
  | unfolded {n : Nat} {m : String} {q : Option String} {x : String} {c : ConstDef}
      {e : ConstExpr} :
      s.const? (q.getD m) x = some c → c.init = .expr e → Levels s (q.getD m) e n →
      Levels s m (.ref q x) (n + 1)
  | negate {n : Nat} {m : String} {e : ConstExpr} :
      Levels s m e n → Levels s m (.negate e) (n + 1)
  | binary {n k : Nat} {m : String} {op : Operator} {l r : ConstExpr} :
      Levels s m l n → Levels s m r k → Levels s m (.binary op l r) (max n k + 1)

/-- A stored value costs nothing. -/
def Affordable (s : Snapshot) (m : String) (c : ConstDef) : Prop :=
  ∀ e, c.init = .expr e → ∃ n ≤ externalLevels, s.Levels m e n

variable {s : Snapshot}

/-! ## Levels -/

theorem Derives.levels {n : Nat} {m : String} {e : ConstExpr} {v : Value}
    (h : s.Derives n m e v) : ∃ k ≤ n, s.Levels m e k := by
  induction h with
  | literal => exact ⟨1, Nat.succ_pos _, .literal⟩
  | stored hc hv => exact ⟨1, Nat.succ_pos _, .stored hc hv⟩
  | unfolded hc he _ ih =>
    obtain ⟨k, hk, hl⟩ := ih
    exact ⟨k + 1, Nat.succ_le_succ hk, .unfolded hc he hl⟩
  | negate _ _ ih =>
    obtain ⟨k, hk, hl⟩ := ih
    exact ⟨k + 1, Nat.succ_le_succ hk, .negate hl⟩
  | binary _ _ _ ihl ihr =>
    obtain ⟨k, hk, hl⟩ := ihl
    obtain ⟨i, hi, hr⟩ := ihr
    exact ⟨max k i + 1, Nat.succ_le_succ (Nat.max_le.2 ⟨hk, hi⟩), .binary hl hr⟩

/-- A value takes no more levels than there are. -/
theorem Levels.derives {k : Nat} {m : String} {e : ConstExpr} (h : s.Levels m e k) :
    ∀ {n : Nat} {v : Value}, s.Derives n m e v → s.Derives k m e v := by
  induction h with
  | literal =>
    intro n v hd
    cases hd
    exact .literal
  | stored hc hv =>
    intro n w hd
    cases hd with
    | stored hc' hv' => exact .stored hc' hv'
    | unfolded hc' he' _ =>
      cases hc.symm.trans hc'
      cases hv.symm.trans he'
  | unfolded hc he _ ih =>
    intro n w hd
    cases hd with
    | stored hc' hv' => exact .stored hc' hv'
    | unfolded hc' he' hd' =>
      cases hc.symm.trans hc'
      cases he.symm.trans he'
      exact .unfolded hc he (ih hd')
  | negate _ ih =>
    intro n w hd
    cases hd with
    | negate hd' hw => exact .negate (ih hd') hw
  | @binary i j _ _ _ _ _ _ ihl ihr =>
    intro n w hd
    cases hd with
    | binary hl hr hx =>
      exact .binary ((ihl hl).mono (Nat.le_max_left i j)) ((ihr hr).mono (Nat.le_max_right i j)) hx

/-- Whichever derivation there is, a compile finds the value if the levels are there. -/
theorem constValue?_iff_affordable {m x : String} {c : ConstDef} {v : Value}
    (hc : s.const? m x = some c) :
    s.constValue? m c = some v ↔ (∃ n, s.Derives n m (.ref none x) v) ∧ s.Affordable m c := by
  rw [constValue?_eq_some]
  cases hi : c.init with
  | value w =>
    constructor
    · intro h
      simp only [HasValue, hi] at h
      subst h
      refine ⟨⟨1, .stored hc hi⟩, fun e he => ?_⟩
      cases hi.symm.trans he
    · rintro ⟨⟨n, hd⟩, -⟩
      cases hd with
      | stored hc' hv' =>
        cases hc.symm.trans hc'
        exact hasValue_of_value hv'
      | unfolded hc' he' _ =>
        cases hc.symm.trans hc'
        cases hi.symm.trans he'
  | expr e =>
    constructor
    · intro h
      simp only [HasValue, hi] at h
      refine ⟨⟨_, .unfolded hc hi h⟩, fun e' he' => ?_⟩
      cases hi.symm.trans he'
      exact h.levels
    · rintro ⟨⟨n, hd⟩, haffordable⟩
      cases hd with
      | stored hc' hv' =>
        cases hc.symm.trans hc'
        cases hi.symm.trans hv'
      | unfolded hc' he' hd' =>
        cases hc.symm.trans hc'
        cases hi.symm.trans he'
        obtain ⟨k, hk, hl⟩ := haffordable e hi
        exact hasValue_of_derives hi ((hl.derives hd').mono hk)

end Snapshot

/-! ## The snapshot at run time -/

def Resolver.Presents (resolver : Resolver) (snapshot : Snapshot) : Prop :=
  ∀ m, (resolver.get? m).map (·.interface) = (snapshot.get? m).map (·.interface)

namespace Resolver.Presents

variable {resolver : Resolver} {snapshot : Snapshot}

theorem lead_eq (h : resolver.Presents snapshot) {m : String} {r : Reference}
    (hr : snapshot.get? m = some r) (q : Option String) :
    lead resolver r.interface q = (snapshot.get? (q.getD m)).map (·.interface) := by
  obtain rfl : r.interface.name = m := Snapshot.name_of_get? hr
  cases q with
  | none =>
    rw [Option.getD_none, hr]
    rfl
  | some k =>
    unfold lead
    dsimp only
    split
    · rename_i hk
      rw [Option.getD_some, hk, hr]
      rfl
    · exact h k

/-- The constants of a snapshot's modules, which have different names. -/
theorem namesSuffice (h : resolver.Presents snapshot) :
    NamesSuffice resolver fun i _ => ∃ m r, snapshot.get? m = some r ∧ r.interface = i where
  closed := by
    rintro _ j x y c e q ⟨m, r, hr, rfl⟩ - - - hj
    rw [h.lead_eq hr] at hj
    obtain ⟨r', hr', rfl⟩ := Option.map_eq_some_iff.1 hj
    obtain rfl : r.interface.name = m := Snapshot.name_of_get? hr
    exact ⟨Snapshot.name_of_get? hr', _, r', hr', rfl⟩
  same := by
    rintro _ _ x ⟨m, r, hr, rfl⟩ ⟨k, t, ht, rfl⟩ hname
    obtain rfl : r.interface.name = m := Snapshot.name_of_get? hr
    obtain rfl : t.interface.name = k := Snapshot.name_of_get? ht
    rw [hname, ht] at hr
    rw [Option.some_inj.1 hr]

theorem derives_of_yields (h : resolver.Presents snapshot) {n : Nat} {i : Interface}
    {e : ConstExpr} {v : Value} (hy : Yields resolver n i e v) :
    ∀ {m : String} {r : Reference}, snapshot.get? m = some r → r.interface = i →
      ∃ k, snapshot.Derives k m e v := by
  induction hy with
  | literal => exact fun _ _ => ⟨1, .literal⟩
  | stored hj hc hv =>
    rintro m r hr rfl
    rw [h.lead_eq hr] at hj
    obtain ⟨r', hr', rfl⟩ := Option.map_eq_some_iff.1 hj
    exact ⟨1, .stored (Snapshot.const?_eq_some.2 ⟨r', hr', hc⟩) hv⟩
  | unfolded hj hc he _ _ ih =>
    rintro m r hr rfl
    rw [h.lead_eq hr] at hj
    obtain ⟨r', hr', rfl⟩ := Option.map_eq_some_iff.1 hj
    obtain ⟨k, hk⟩ := ih hr' rfl
    exact ⟨k + 1, .unfolded (Snapshot.const?_eq_some.2 ⟨r', hr', hc⟩) he hk⟩
  | negate _ hw ih =>
    intro m r hr hi
    obtain ⟨k, hk⟩ := ih hr hi
    exact ⟨k + 1, .negate hk hw⟩
  | binary _ _ hx ihl ihr =>
    intro m r hr hi
    obtain ⟨k, hk⟩ := ihl hr hi
    obtain ⟨l, hl⟩ := ihr hr hi
    exact ⟨max k l + 1,
      .binary (hk.mono (Nat.le_max_left k l)) (hl.mono (Nat.le_max_right k l)) hx⟩

theorem yields_of_derives (h : resolver.Presents snapshot) (himages : snapshot.FromImages)
    {n : Nat} {m : String} {e : ConstExpr} {v : Value} (hd : snapshot.Derives n m e v) :
    ∀ {r : Reference}, snapshot.get? m = some r → ∃ k, Yields resolver k r.interface e v := by
  induction hd with
  | literal => exact fun _ => ⟨0, .literal⟩
  | stored hc hv =>
    intro r hr
    obtain ⟨r', hr', hx⟩ := Snapshot.const?_eq_some.1 hc
    exact ⟨0, .stored ((h.lead_eq hr _).trans (congrArg _ hr')) hx hv⟩
  | @unfolded n m q x c e v hc he _ ih =>
    intro r hr
    obtain ⟨r', hr', hx⟩ := Snapshot.const?_eq_some.1 hc
    have hheight : e.height ≤ maxLevels := himages.shallow hr' c (Interface.mem_of_const? hx) e he
    obtain ⟨k, hk⟩ := ih hr'
    exact ⟨k + 1, .unfolded ((h.lead_eq hr _).trans (congrArg _ hr')) hx he hheight hk⟩
  | negate _ hw ih =>
    intro r hr
    obtain ⟨k, hk⟩ := ih hr
    exact ⟨k, .negate hk hw⟩
  | binary _ _ hx ihl ihr =>
    intro r hr
    obtain ⟨k, hk⟩ := ihl hr
    obtain ⟨l, hl⟩ := ihr hr
    exact ⟨max k l, .binary hk hl hx⟩

theorem evaluate_iff_derives (h : resolver.Presents snapshot) (himages : snapshot.FromImages)
    {m : String} {r : Reference} (hr : snapshot.get? m = some r) {k : Handle}
    (hk : k.interface = r.interface) (x : String) (v : Value) :
    k.evaluate x resolver = .ok v ↔ ∃ n, snapshot.Derives n m (.ref none x) v := by
  rw [evaluate_iff_yields h.namesSuffice (hk ▸ ⟨m, r, hr, rfl⟩), hk]
  constructor
  · rintro ⟨n, hn⟩
    exact h.derives_of_yields hn hr rfl
  · rintro ⟨n, hn⟩
    exact h.yields_of_derives himages hn hr

end Resolver.Presents

/--
The constant `x` of a module of the snapshot, evaluated with exactly the snapshot's modules, has
the value that there is a derivation of, through chains of references of any length. A compile
against the snapshot finds the same value, provided that it has the levels that this takes.
-/
theorem Snapshot.constValue?_iff_evaluate {snapshot : Snapshot} (himages : snapshot.FromImages)
    {resolver : Resolver} (hresolver : resolver.Presents snapshot) {m x : String} {r : Reference}
    {c : ConstDef} (hr : snapshot.get? m = some r) (hc : r.interface.const? x = some c)
    {h : Handle} (hh : h.interface = r.interface) (v : Value) :
    (h.evaluate x resolver = .ok v ↔ ∃ n, snapshot.Derives n m (.ref none x) v) ∧
      (snapshot.constValue? m c = some v ↔
        h.evaluate x resolver = .ok v ∧ snapshot.Affordable m c) := by
  have hevaluate := hresolver.evaluate_iff_derives himages hr hh x v
  refine ⟨hevaluate, ?_⟩
  rw [hevaluate]
  exact Snapshot.constValue?_iff_affordable (Snapshot.const?_eq_some.2 ⟨r, hr, hc⟩)

/-! ### Chains -/

/-- The names of links differ in their lengths. -/
def linkName (n : Nat) : String := String.ofList (List.replicate (n + 1) 'A')

/-- The first link is 1, every other one is the one before. -/
def linkExpr : Nat → ConstExpr
  | 0 => .literal (.int 1)
  | n + 1 => .ref none (linkName n)

def link (n : Nat) : ConstDef := ⟨linkName n, .int, .expr (linkExpr n)⟩

def links : Nat → List ConstDef
  | 0 => [link 0]
  | n + 1 => link (n + 1) :: links n

def chain (n : Nat) : Interface := ⟨"M", .debug, [], [], links n⟩

def chained (n : Nat) : Snapshot := ⟨[⟨chain n, .memory⟩]⟩

theorem linkName_ne {i n : Nat} (h : i < n) : linkName n ≠ linkName i := by
  intro heq
  have hlength := congrArg List.length (String.ofList_injective heq)
  rw [List.length_replicate, List.length_replicate] at hlength
  omega

theorem const?_chain {i n : Nat} (h : i ≤ n) : (chain n).const? (linkName i) = some (link i) := by
  show (links n).find? (·.name == linkName i) = some (link i)
  induction n with
  | zero =>
    obtain rfl := Nat.le_zero.1 h
    exact List.find?_cons_of_pos (beq_self_eq_true _)
  | succ n ih =>
    rcases Nat.lt_or_eq_of_le h with hlt | rfl
    · have hne : ¬ (linkName (n + 1) == linkName i) = true :=
        fun hname => linkName_ne hlt (beq_iff_eq.1 hname)
      exact (List.find?_cons_of_neg (p := fun c : ConstDef => c.name == linkName i) hne).trans
        (ih (Nat.le_of_lt_succ hlt))
    · exact List.find?_cons_of_pos (beq_self_eq_true _)

theorem const?_chained {i n : Nat} (h : i ≤ n) :
    (chained n).const? "M" (linkName i) = some (link i) :=
  Snapshot.const?_eq_some.2 ⟨⟨chain n, .memory⟩, rfl, const?_chain h⟩

/-- A link's initializer has a value, and the way there goes through every link before it. -/
theorem derives_linkExpr {n : Nat} : ∀ {i : Nat}, i ≤ n →
    (chained n).Derives (i + 1) "M" (linkExpr i) (.int 1)
  | 0, _ => .literal
  | _ + 1, h => .unfolded (const?_chained (Nat.le_of_succ_le h)) rfl
      (derives_linkExpr (Nat.le_of_succ_le h))

theorem lt_of_derives_linkExpr {n : Nat} : ∀ {i k : Nat} {v : Value}, i ≤ n →
    (chained n).Derives k "M" (linkExpr i) v → i < k
  | 0, _, _, _, .literal => Nat.succ_pos _
  | _ + 1, _, _, h, .stored hc hv => by
    cases (const?_chained (Nat.le_of_succ_le h)).symm.trans hc
    cases hv
  | _ + 1, _, _, h, .unfolded hc he hd => by
    cases (const?_chained (Nat.le_of_succ_le h)).symm.trans hc
    cases he
    exact Nat.succ_lt_succ (lt_of_derives_linkExpr (Nat.le_of_succ_le h) hd)

theorem constValue?_link {n : Nat} (h : Snapshot.externalLevels ≤ n) :
    (chained n).constValue? "M" (link n) = none := by
  cases hv : (chained n).constValue? "M" (link n) with
  | none => rfl
  | some v =>
    have hd : (chained n).Derives Snapshot.externalLevels "M" (linkExpr n) v :=
      Snapshot.constValue?_eq_some.1 hv
    exact absurd (lt_of_derives_linkExpr (Nat.le_refl n) hd) (Nat.not_lt.2 h)

theorem mem_links {n : Nat} {c : ConstDef} (h : c ∈ links n) : ∃ i ≤ n, c = link i := by
  induction n with
  | zero => exact ⟨0, Nat.le_refl 0, List.mem_singleton.1 h⟩
  | succ n ih =>
    rcases List.mem_cons.1 h with rfl | h
    · exact ⟨n + 1, Nat.le_refl _, rfl⟩
    · obtain ⟨i, hi, rfl⟩ := ih h
      exact ⟨i, Nat.le_succ_of_le hi, rfl⟩

theorem length_links (n : Nat) : (links n).length = n + 1 := by
  induction n with
  | zero => rfl
  | succ n ih => rw [links, List.length_cons, ih]

theorem fits_linkName {n : Nat} (h : n + 1 < Wire.countLimit) : Text.Fits (linkName n) := by
  have hsize : ∀ k, (String.ofList (List.replicate k 'A')).toByteArray.size = k := by
    intro k
    rw [String.toByteArray_ofList]
    induction k with
    | zero => rfl
    | succ k ih =>
      have hone : ['A'].utf8Encode.size = 1 := by decide
      rw [List.replicate_succ, List.utf8Encode_cons, ByteArray.size_append, ih, hone,
        Nat.add_comm]
  show (String.ofList (List.replicate (n + 1) 'A')).toByteArray.size < Wire.countLimit
  rwa [hsize]

/-- Such a module can come from an image. -/
theorem fromImages_chained {n : Nat} (h : n + 1 < Wire.countLimit) : (chained n).FromImages := by
  intro r hr
  obtain rfl := List.mem_singleton.1 hr
  have hlink {i : Nat} (hi : i ≤ n) : i + 1 < Wire.countLimit := by omega
  have hfits : (chain n).Fits :=
    { name := show Text.Fits "M" by decide +kernel
      referenceCount := Nat.succ_pos _
      references := fun _ hr => nomatch hr
      typeCount := Nat.succ_pos _
      types := fun _ ht => nomatch ht
      constantCount := by
        show (links n).length < Wire.countLimit
        rwa [length_links]
      constants := by
        intro c hc
        obtain ⟨i, hi, rfl⟩ := mem_links hc
        refine ⟨fits_linkName (hlink hi), ?_⟩
        cases i with
        | zero => trivial
        | succ i => exact fits_linkName (hlink (Nat.le_of_succ_le hi)) }
  have hproper : (chain n).Proper := by
    refine ⟨fun _ ht => (nomatch ht), fun c hc v hv => ?_⟩
    obtain ⟨i, -, rfl⟩ := mem_links hc
    cases hv
  have hshallow : (chain n).Shallow := by
    intro c hc e he
    obtain ⟨i, -, rfl⟩ := mem_links hc
    cases he
    cases i with
    | zero => exact Nat.succ_pos _
    | succ i => exact Nat.succ_pos _
  exact ⟨(chain n).encode, Wire.unwrap_of_reads (Interface.reads hfits hproper hshallow)⟩

def chainHandle (n : Nat) : Handle := ⟨0, chain n, none, none, false⟩

theorem presents_chained (n : Nat) :
    (Resolver.ofHandles [chainHandle n]).Presents (chained n) := by
  intro m
  rw [Resolver.get?_ofHandles]
  simp only [chained, Snapshot.get?, chainHandle, Reference.name, Handle.name, List.find?_cons,
    List.find?_nil]
  split
  · rfl
  · rfl

/-- The last of 1025 links has its value at run time and for a compile. -/
theorem chain_within_budget :
    (chained 1024).FromImages ∧
      (Resolver.ofHandles [chainHandle 1024]).Presents (chained 1024) ∧
      (chained 1024).get? "M" = some ⟨chain 1024, .memory⟩ ∧
      (chain 1024).const? (linkName 1024) = some (link 1024) ∧
      (chained 1024).Affordable "M" (link 1024) ∧
      (chainHandle 1024).evaluate (linkName 1024) (.ofHandles [chainHandle 1024]) = .ok (.int 1) ∧
      (chained 1024).constValue? "M" (link 1024) = some (.int 1) := by
  have himages : (chained 1024).FromImages := fromImages_chained (by decide)
  have hpresents := presents_chained 1024
  have hget : (chained 1024).get? "M" = some ⟨chain 1024, .memory⟩ := rfl
  have hconst := const?_chain (Nat.le_refl 1024)
  have hvalue : (chained 1024).constValue? "M" (link 1024) = some (.int 1) :=
    Snapshot.constValue?_eq_some.2 (derives_linkExpr (Nat.le_refl 1024))
  have hagree := Snapshot.constValue?_iff_evaluate himages hpresents hget hconst
    (show (chainHandle 1024).interface = chain 1024 from rfl) (.int 1)
  obtain ⟨heval, haffordable⟩ := hagree.2.1 hvalue
  exact ⟨himages, hpresents, hget, hconst, haffordable, heval, hvalue⟩

/-- With one link more the compile has no value for it. -/
theorem chain_over_budget :
    (chained 1025).FromImages ∧
      (Resolver.ofHandles [chainHandle 1025]).Presents (chained 1025) ∧
      (chained 1025).get? "M" = some ⟨chain 1025, .memory⟩ ∧
      (chain 1025).const? (linkName 1025) = some (link 1025) ∧
      (chainHandle 1025).evaluate (linkName 1025) (.ofHandles [chainHandle 1025]) =
        .ok (.int 1) ∧
      (chained 1025).constValue? "M" (link 1025) = none := by
  have himages : (chained 1025).FromImages := fromImages_chained (by decide)
  have hpresents := presents_chained 1025
  have hderives : (chained 1025).Derives 1027 "M" (.ref none (linkName 1025)) (.int 1) :=
    .unfolded (const?_chained (Nat.le_refl _)) rfl (derives_linkExpr (Nat.le_refl _))
  refine ⟨himages, hpresents, rfl, const?_chain (Nat.le_refl _), ?_,
    constValue?_link (Nat.le_refl _)⟩
  exact (hpresents.evaluate_iff_derives himages rfl rfl _ _).2 ⟨1027, hderives⟩

end Linkage
