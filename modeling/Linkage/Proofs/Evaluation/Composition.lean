import Linkage.Proofs.Evaluation.Meaning

/-!
# Linkage.Proofs.Evaluation.Composition

Evaluating a constant against evaluating each of its references on its own.

* `ConstExpr.valueOver` — the value of an expression, given those of its references.
* `Handle.valueOfRef` — a reference evaluated on its own: in the module itself or in the one that
  the resolver has under the name, even if that replaced the module itself.
* `Unmixed` — below a constant, names are not shared by constants of different modules.
* `evaluate_compositional` — then the value of a constant is that of its initializer with each
  reference evaluated on its own.
* `evaluate_mixes` — otherwise it need not be: what is known is known by names, so an evaluation
  that comes to two modules of one name takes a value of one for that of the other.
-/

namespace Linkage

open Evaluation

def ConstExpr.valueOver (values : Option String → String → Except EvalError Value) :
    ConstExpr → Except EvalError Value
  | .literal v => .ok v
  | .ref m x => values m x
  | .negate e =>
    match e.valueOver values with
    | .error e => .error e
    | .ok v => settle v.negate
  | .binary op l r =>
    match l.valueOver values with
    | .error e => .error e
    | .ok v =>
      match r.valueOver values with
      | .error e => .error e
      | .ok w => settle (v.apply op w)

def Handle.valueOfRef (h : Handle) (resolver : Resolver) :
    Option String → String → Except EvalError Value
  | none, x => h.evaluate x resolver
  | some m, x =>
    if m = h.name then h.evaluate x resolver
    else
      match resolver.get? m with
      | none => .error (.unresolvedModule m)
      | some k => k.evaluate x resolver

namespace Evaluation

/-- Constants of one name, in modules of one name, are the same below this one. -/
def Unmixed (resolver : Resolver) (p : Handle × String) : Prop :=
  ∀ q r, Relation.TransGen (Refers resolver) p q → Relation.TransGen (Refers resolver) p r →
    q.1.name = r.1.name → q.2 = r.2 → q.1.interface = r.1.interface

variable {resolver : Resolver}

/-! ## Expressions over values -/

/-- What is known gives the values of references by names. -/
theorem compute_eq_valueOver (known : Known) (home : String) (e : ConstExpr) :
    compute known home e = e.valueOver fun m x =>
      match known.lookup (m.getD home, x) with
      | some v => .ok v
      | none => .error (.unknownConstant (m.getD home) x) := by
  induction e with
  | literal v => rfl
  | ref m x => rfl
  | negate e ih =>
    rw [compute, ih]
    rfl
  | binary op l r ihl ihr =>
    rw [compute, ihl, ihr]
    rfl

theorem valueOver_of_refs {f g : Option String → String → Except EvalError Value} {e : ConstExpr} :
    ∀ {v : Value}, e.valueOver f = .ok v →
      (∀ p ∈ e.refs, ∀ w, f p.1 p.2 = .ok w → g p.1 p.2 = .ok w) → e.valueOver g = .ok v := by
  induction e with
  | literal u => exact fun h _ => h
  | ref m x => exact fun h hrefs => hrefs (m, x) List.mem_cons_self _ h
  | negate e ih =>
    intro v h hrefs
    simp only [ConstExpr.valueOver] at h ⊢
    cases he : e.valueOver f with
    | error err =>
      rw [he] at h
      cases h
    | ok u =>
      rw [he] at h
      rw [ih he hrefs]
      exact h
  | binary op l r ihl ihr =>
    intro v h hrefs
    simp only [ConstExpr.valueOver] at h ⊢
    cases hl : l.valueOver f with
    | error err =>
      rw [hl] at h
      cases h
    | ok u =>
      cases hr : r.valueOver f with
      | error err =>
        rw [hl, hr] at h
        cases h
      | ok w =>
        rw [hl, hr] at h
        rw [ihl hl fun p hp => hrefs p (List.mem_append_left _ hp),
          ihr hr fun p hp => hrefs p (List.mem_append_right _ hp)]
        exact h

theorem valueOfRef_of_target {h l : Handle} {m : Option String}
    (ht : target resolver h m = .ok l) (x : String) :
    h.valueOfRef resolver m x = l.evaluate x resolver := by
  cases m with
  | none =>
    cases ht
    rfl
  | some m =>
    simp only [target] at ht
    unfold Handle.valueOfRef
    dsimp only
    split at ht
    · rename_i hm
      cases ht
      rw [if_pos hm]
    · rename_i hm
      split at ht
      · rename_i hget
        cases ht
        rw [if_neg hm, hget]
      · cases ht

/-! ## Below a constant -/

/-- The constants that a constant leads to. -/
def Below (resolver : Resolver) (p : Handle × String) (i : Interface) (x : String) : Prop :=
  ∃ k : Handle, Relation.TransGen (Refers resolver) p (k, x) ∧ k.interface = i

theorem name_of_target (hnamed : ∀ m k, resolver.get? m = some k → k.name = m) {k l : Handle}
    {m : Option String} (h : target resolver k m = .ok l) : l.name = m.getD k.name := by
  rcases target_cases h with ⟨rfl, hm⟩ | ⟨n, rfl, hget⟩
  · exact hm.symm
  · exact hnamed n l hget

theorem Unmixed.namesSuffice {p : Handle × String} (h : Unmixed resolver p)
    (hnamed : ∀ m k, resolver.get? m = some k → k.name = m) :
    NamesSuffice resolver (Below resolver p) where
  closed := by
    rintro _ j x y c e m ⟨k, hk, rfl⟩ hc he hm hj
    obtain ⟨l, ht, rfl⟩ := target_of_lead hj
    exact ⟨name_of_target hnamed ht, l, hk.tail ⟨c, e, m, hc, he, hm, ht⟩, rfl⟩
  same := by
    rintro _ _ x ⟨k, hk, rfl⟩ ⟨l, hl, rfl⟩ hname
    exact h (k, x) (l, x) hk hl hname rfl

/-- An unfolded constant has the value of its initializer over what its references leave known. -/
theorem known_of_evaluate {h : Handle} {x : String} {c : ConstDef} {e : ConstExpr} {v : Value}
    (hc : h.interface.const? x = some c) (he : c.init = .expr e)
    (hv : h.evaluate x resolver = .ok v) :
    ∃ b needed known, targets resolver h e.refs = .ok needed ∧
      visitAll (visit resolver b [(h.name, x)]) [] needed = .ok known ∧
      compute known h.name e = .ok v := by
  obtain ⟨b, hb⟩ : ∃ b, bound resolver h = b + 1 := ⟨_, rfl⟩
  rw [evaluate_eq_answer, hb, visit_succ] at hv
  have hlooks := look_spec resolver [] [] h x
  generalize look resolver [] [] h x = found at hv hlooks
  cases hlooks with
  | known hsome => cases hsome
  | unknown => cases hv
  | stored _ hc' hi =>
    cases hc.symm.trans hc'
    cases he.symm.trans hi
  | cycle => cases hv
  | tooHigh => cases hv
  | unresolved => cases hv
  | @pending c' e' needed _ hc' he' _ _ ht =>
    cases hc.symm.trans hc'
    cases he.symm.trans he'
    dsimp only at hv
    cases hall : visitAll (visit resolver b [(h.name, x)]) [] needed with
    | error err =>
      rw [hall] at hv
      cases hv
    | ok known =>
      rw [hall] at hv
      dsimp only at hv
      cases hcompute : compute known h.name e with
      | error err =>
        rw [hcompute] at hv
        cases hv
      | ok w =>
        rw [hcompute] at hv
        dsimp only [answer] at hv
        rw [List.lookup_cons_self] at hv
        cases hv
        exact ⟨b, needed, known, ht, hall, hcompute⟩

end Evaluation

/--
Let a resolver find modules by their names, and let the constants below the constant `x` of `h` not
share names. If `x` is unfolded and has a value, then each reference of its initializer `e` has one
too, evaluated on its own, and the value of `x` is that of `e` over these.
-/
theorem Handle.evaluate_compositional {resolver : Resolver}
    (hnamed : ∀ m k, resolver.get? m = some k → k.name = m) {h : Handle} {x : String}
    (hunmixed : Unmixed resolver (h, x)) {c : ConstDef} {e : ConstExpr} {v : Value}
    (hc : h.interface.const? x = some c) (he : c.init = .expr e)
    (hv : h.evaluate x resolver = .ok v) : e.valueOver (h.valueOfRef resolver) = .ok v := by
  have hS := hunmixed.namesSuffice hnamed
  obtain ⟨b, needed, known, hneeded, hall, hcompute⟩ := known_of_evaluate hc he hv
  have hbelow {m : Option String} {y : String} {l : Handle} (hm : (m, y) ∈ e.refs)
      (ht : target resolver h m = .ok l) : Below resolver (h, x) l.interface y :=
    ⟨l, .single ⟨c, e, m, hc, he, hm, ht⟩, rfl⟩
  have haccurate : Accurate resolver (Below resolver (h, x)) known := by
    refine visitAll_accurate needed accurate_nil (fun d hd => ?_) hall
    obtain ⟨m, hm, ht⟩ := targets_mem hneeded d hd
    exact visit_accurate hS b (hbelow hm ht)
  rw [compute_eq_valueOver] at hcompute
  refine valueOver_of_refs hcompute fun p hp w hw => ?_
  obtain ⟨l, ht, -⟩ := targets_covers hneeded p hp
  have hlookup : known.lookup (l.name, p.2) = some w := by
    rw [name_of_target hnamed ht]
    split at hw
    · rename_i u hu
      cases hw
      exact hu
    · cases hw
  rw [valueOfRef_of_target ht]
  exact (evaluate_iff_yields hS (hbelow hp ht)).2 (haccurate.yields hS (hbelow hp ht) hlookup)

/-! ### A module that was replaced -/

def shop : Handle :=
  ⟨0, ⟨"Shop", .debug, ["Rates"], [], [⟨"FEE", .int, .expr (.ref (some "Rates") "BASE")⟩]⟩,
    none, none, false⟩

def netExpr : ConstExpr := .binary .mul (.ref (some "Shop") "FEE") (.literal (.int 2))

def totalExpr : ConstExpr := .binary .add (.ref (some "Shop") "FEE") (.ref none "BASE")

def oldRates : Handle :=
  ⟨1, ⟨"Rates", .debug, ["Shop"], [],
    [⟨"BASE", .int, .expr (.literal (.int 1))⟩, ⟨"NET", .int, .expr netExpr⟩,
     ⟨"TOTAL", .int, .expr totalExpr⟩]⟩,
    none, none, true⟩

def newRates : Handle :=
  ⟨2, ⟨"Rates", .debug, [], [], [⟨"BASE", .int, .value (.int 100)⟩]⟩, none, none, true⟩

def shopResolver : Resolver := .ofHandles [shop, newRates]

/-- `NET` leads through the shop to the new rates, and to nothing of the old ones. -/
theorem below_net {q : Handle × String}
    (h : Relation.TransGen (Refers shopResolver) (oldRates, "NET") q) :
    q = (shop, "FEE") ∨ q = (newRates, "BASE") := by
  induction h with
  | @single q hq =>
    obtain ⟨k, y⟩ := q
    obtain ⟨c, e, m, hc, he, hm, ht⟩ := hq
    have hnet : oldRates.interface.const? "NET" = some ⟨"NET", .int, .expr netExpr⟩ := by
      decide +kernel
    cases hnet.symm.trans hc
    cases he
    cases List.mem_singleton.1 hm
    have hshop : target shopResolver oldRates (some "Shop") = .ok shop := by decide +kernel
    cases hshop.symm.trans ht
    exact .inl rfl
  | @tail p q _ hq ih =>
    obtain ⟨k, y⟩ := q
    obtain ⟨c, e, m, hc, he, hm, ht⟩ := hq
    rcases ih with rfl | rfl
    · have hfee : shop.interface.const? "FEE" =
          some ⟨"FEE", .int, .expr (.ref (some "Rates") "BASE")⟩ := by
        decide +kernel
      cases hfee.symm.trans hc
      cases he
      cases List.mem_singleton.1 hm
      have hrates : target shopResolver shop (some "Rates") = .ok newRates := by decide +kernel
      cases hrates.symm.trans ht
      exact .inr rfl
    · have hbase : newRates.interface.const? "BASE" = some ⟨"BASE", .int, .value (.int 100)⟩ := by
        decide +kernel
      cases hbase.symm.trans hc
      cases he

theorem named_shopResolver (m : String) (k : Handle) (h : shopResolver.get? m = some k) :
    k.name = m := by
  rw [shopResolver, Resolver.get?_ofHandles] at h
  exact beq_iff_eq.1 (List.find?_some (p := fun k : Handle => k.name == m) h)

/-- The shop's fee is 100 by the new rates, and twice that is 200. -/
theorem Handle.evaluate_compositional_net :
    shopResolver.get? oldRates.name = some newRates ∧ Unmixed shopResolver (oldRates, "NET") ∧
      oldRates.evaluate "NET" shopResolver = .ok (.int 200) ∧
      netExpr.valueOver (oldRates.valueOfRef shopResolver) = .ok (.int 200) := by
  have hreplaced : shopResolver.get? oldRates.name = some newRates := by decide +kernel
  have hnet : oldRates.interface.const? "NET" = some ⟨"NET", .int, .expr netExpr⟩ := by
    decide +kernel
  have hvalue : oldRates.evaluate "NET" shopResolver = .ok (.int 200) := by decide +kernel
  have hunmixed : Unmixed shopResolver (oldRates, "NET") := by
    intro q r hq hr hmodule hname
    rcases below_net hq with rfl | rfl
    · rcases below_net hr with rfl | rfl
      · rfl
      · exact absurd hname (by decide)
    · rcases below_net hr with rfl | rfl
      · exact absurd hname (by decide)
      · rfl
  exact ⟨hreplaced, hunmixed, hvalue,
    Handle.evaluate_compositional named_shopResolver hunmixed hnet rfl hvalue⟩

/--
The old `BASE` is 1 and the shop's fee is 100, so that `TOTAL` should be 101. But the fee leaves the
new `BASE` known, which is then taken for the old one.
-/
theorem evaluate_mixes :
    (∀ m k, shopResolver.get? m = some k → k.name = m) ∧
      oldRates.interface.const? "TOTAL" = some ⟨"TOTAL", .int, .expr totalExpr⟩ ∧
      oldRates.evaluate "TOTAL" shopResolver = .ok (.int 200) ∧
      totalExpr.valueOver (oldRates.valueOfRef shopResolver) = .ok (.int 101) := by
  refine ⟨named_shopResolver, ?_, ?_, ?_⟩
  · decide +kernel
  · decide +kernel
  · decide +kernel

end Linkage
