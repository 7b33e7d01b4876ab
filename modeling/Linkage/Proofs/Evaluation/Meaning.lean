import Linkage.Proofs.Evaluation.Naming
import Mathlib.Logic.Relation

/-!
# Linkage.Proofs.Evaluation.Meaning

Evaluation is its meaning by recursion, and reports cycles where there are cycles.

* `Denotes k e v` — the expression `e`, standing in the module `k`, has the value `v`, whatever
  it takes to find it: no keys, nothing known, no bound.
* `Refers p q` — the initializer of the constant `p` has a reference to `q`.
* `CycleBelow p` — a chain of references leads from `p` to a constant that depends on itself.
* `visit_sound` — a cycle is reported only where there is one. The constants that wait for the
  current one are its ancestors: from each there is a chain of references to it. So one of them can
  only be met again on a cycle, and a constant that two others share is met again as a known one.
* `evaluate_meaning` — evaluation stops, gives `v` exactly if `v` is the meaning and there is no
  cycle below, and a cycle only if there is one.
-/

namespace Linkage
namespace Evaluation

section

variable (resolver : Resolver)

inductive Denotes : Handle → ConstExpr → Value → Prop where
  | literal {k : Handle} {v : Value} : Denotes k (.literal v) v
  | stored {k l : Handle} {m : Option String} {x : String} {c : ConstDef} {v : Value} :
      target resolver k m = .ok l → l.interface.const? x = some c → c.init = .value v →
      Denotes k (.ref m x) v
  | unfolded {k l : Handle} {m : Option String} {x : String} {c : ConstDef} {e : ConstExpr}
      {v : Value} :
      target resolver k m = .ok l → l.interface.const? x = some c → c.init = .expr e →
      e.height ≤ maxLevels → Denotes l e v → Denotes k (.ref m x) v
  | negate {k : Handle} {e : ConstExpr} {v w : Value} :
      Denotes k e v → v.negate = .ok w → Denotes k (.negate e) w
  | binary {k : Handle} {op : Operator} {l r : ConstExpr} {v w x : Value} :
      Denotes k l v → Denotes k r w → v.apply op w = .ok x → Denotes k (.binary op l r) x

/-- The initializer of a constant has a reference to another one. -/
def Refers (p q : Handle × String) : Prop :=
  ∃ c e m, p.1.interface.const? p.2 = some c ∧ c.init = .expr e ∧ (m, q.2) ∈ e.refs ∧
    target resolver p.1 m = .ok q.1

/-- A chain of references leads from a constant to itself. -/
def OnCycle (p : Handle × String) : Prop := Relation.TransGen (Refers resolver) p p

def CycleBelow (p : Handle × String) : Prop :=
  ∃ q, Relation.ReflTransGen (Refers resolver) p q ∧ OnCycle resolver q

end

variable {resolver : Resolver} {root : Handle}

/-! ## Meanings and derivations -/

/-- A derivation says in addition how long the chains below are. -/
theorem denotes_iff_yields {k : Handle} {e : ConstExpr} {v : Value} :
    Denotes resolver k e v ↔ ∃ n, Yields resolver n k.interface e v := by
  constructor
  · intro h
    induction h with
    | literal => exact ⟨0, .literal⟩
    | stored ht hc hv => exact ⟨0, .stored (lead_of_target ht) hc hv⟩
    | unfolded ht hc he hh _ ih =>
      obtain ⟨n, hn⟩ := ih
      exact ⟨n + 1, .unfolded (lead_of_target ht) hc he hh hn⟩
    | negate _ hw ih =>
      obtain ⟨n, hn⟩ := ih
      exact ⟨n, .negate hn hw⟩
    | binary _ _ hx ihl ihr =>
      obtain ⟨n, hn⟩ := ihl
      obtain ⟨j, hj⟩ := ihr
      exact ⟨max n j, .binary hn hj hx⟩
  · rintro ⟨n, h⟩
    generalize hk : k.interface = i at h
    induction h generalizing k with
    | literal => exact .literal
    | stored hj hc hv =>
      subst hk
      obtain ⟨l, ht, rfl⟩ := target_of_lead hj
      exact .stored ht hc hv
    | unfolded hj hc he hh _ ih =>
      subst hk
      obtain ⟨l, ht, rfl⟩ := target_of_lead hj
      exact .unfolded ht hc he hh (ih rfl)
    | negate _ hw ih => exact .negate (ih hk) hw
    | binary _ _ hx ihl ihr => exact .binary (ihl hk) (ihr hk) hx

/-- The constants of the modules at hand, if these have their names to themselves. -/
theorem Consistent.namesSuffice (hcons : Consistent resolver root) :
    NamesSuffice resolver fun i _ => ∃ k, Within resolver root k ∧ k.interface = i where
  closed := by
    rintro _ j x y c e m ⟨k, hk, rfl⟩ - - - hj
    obtain ⟨l, ht, rfl⟩ := target_of_lead hj
    have hf := hcons.follows hk ht
    exact ⟨hf.name, l, hf.within, rfl⟩
  same := by
    rintro _ _ x ⟨k, hk, rfl⟩ ⟨l, hl, rfl⟩ hname
    rw [hk.eq_of_name_eq hl hname]

/-! ## No meaning above a cycle -/

theorem Yields.refers {n : Nat} {p q : Handle × String} {v : Value}
    (h : Yields resolver n p.1.interface (.ref none p.2) v) (hq : Refers resolver p q) :
    ∃ j w, j < n ∧ Yields resolver j q.1.interface (.ref none q.2) w := by
  obtain ⟨c, e, m, hc, he, hm, ht⟩ := hq
  cases h with
  | stored hi hc' hv =>
    cases hi
    cases hc.symm.trans hc'
    cases he.symm.trans hv
  | unfolded hi hc' he' _ hd =>
    cases hi
    cases hc.symm.trans hc'
    cases he.symm.trans he'
    obtain ⟨l, j, w, hl, hw, hj⟩ := hd.refs _ hm
    cases hl.symm.trans (lead_of_target ht)
    exact ⟨j, w, Nat.lt_succ_of_le hj, hw⟩

theorem Yields.transGen {n : Nat} {p q : Handle × String} {v : Value}
    (h : Yields resolver n p.1.interface (.ref none p.2) v)
    (hq : Relation.TransGen (Refers resolver) p q) :
    ∃ j w, j < n ∧ Yields resolver j q.1.interface (.ref none q.2) w := by
  induction hq with
  | single hq => exact h.refers hq
  | tail _ hq ih =>
    obtain ⟨i, w, hi, hw⟩ := ih
    obtain ⟨j, u, hj, hu⟩ := hw.refers hq
    exact ⟨j, u, Nat.lt_trans hj hi, hu⟩

/-- Chains get shorter along references, so none comes back to where it started. -/
theorem Yields.not_cycleBelow {n : Nat} {p : Handle × String} {v : Value}
    (h : Yields resolver n p.1.interface (.ref none p.2) v) : ¬ CycleBelow resolver p := by
  rintro ⟨q, hreach, hcycle⟩
  have hq : ∃ j w, Yields resolver j q.1.interface (.ref none q.2) w := by
    rcases Relation.reflTransGen_iff_eq_or_transGen.1 hreach with rfl | htrans
    · exact ⟨n, v, h⟩
    · obtain ⟨j, w, -, hw⟩ := h.transGen htrans
      exact ⟨j, w, hw⟩
  obtain ⟨j, w, hw⟩ := hq
  obtain ⟨i, u, hi, hu⟩ := hw.transGen hcycle
  obtain ⟨rfl, -⟩ := hw.unique hu
  exact Nat.lt_irrefl _ hi

/-! ## Where cycles are reported -/

/-- The active constants are ancestors of the current one. -/
def Ancestors (resolver : Resolver) (root : Handle) (active : List Key)
    (p : Handle × String) : Prop :=
  ∀ key ∈ active, ∃ a, Within resolver root a ∧ a.name = key.1 ∧
    Relation.TransGen (Refers resolver) (a, key.2) p

theorem Ancestors.cons {active : List Key} {p q : Handle × String}
    (h : Ancestors resolver root active p) (hp : Within resolver root p.1)
    (hq : Refers resolver p q) : Ancestors resolver root ((p.1.name, p.2) :: active) q := by
  intro key hkey
  rcases List.mem_cons.1 hkey with rfl | hkey
  · exact ⟨p.1, hp, rfl, .single hq⟩
  · obtain ⟨a, ha, hname, hreach⟩ := h key hkey
    exact ⟨a, ha, hname, hreach.tail hq⟩

/-- An active constant is met again only if it is on a cycle. -/
theorem Ancestors.onCycle {active : List Key} {p : Handle × String}
    (h : Ancestors resolver root active p) (hp : Within resolver root p.1)
    (hmem : (p.1.name, p.2) ∈ active) : OnCycle resolver p := by
  obtain ⟨a, ha, hname, hreach⟩ := h _ hmem
  obtain rfl := ha.eq_of_name_eq hp hname
  exact hreach

/-- A cycle is reported for a constant of this name that is on one and is reached from here. -/
def Reports (resolver : Resolver) (p : Handle × String) (m x : String) : Prop :=
  ∃ l : Handle, l.name = m ∧ Relation.ReflTransGen (Refers resolver) p (l, x) ∧
    OnCycle resolver (l, x)

theorem Reports.cycleBelow {p : Handle × String} {m x : String} (h : Reports resolver p m x) :
    CycleBelow resolver p := by
  obtain ⟨l, -, hreach, hcycle⟩ := h
  exact ⟨(l, x), hreach, hcycle⟩

theorem Reports.head {p q : Handle × String} {m x : String} (hpq : Refers resolver p q)
    (h : Reports resolver q m x) : Reports resolver p m x := by
  obtain ⟨l, hname, hreach, hcycle⟩ := h
  exact ⟨l, hname, .head hpq hreach, hcycle⟩

/-- If the visit of a constant reports a cycle, there is one below. -/
def Sound (resolver : Resolver) (p : Handle × String) (result : Except EvalError Known) : Prop :=
  ∀ m x, result = .error (.cycle m x) → Reports resolver p m x

theorem sound_of_ne {p : Handle × String} {result : Except EvalError Known}
    (h : ∀ m x, result ≠ .error (.cycle m x)) : Sound resolver p result :=
  fun m x hresult => absurd hresult (h m x)

theorem settle_error {r : Except ArithmeticError Value} {x : EvalError}
    (h : settle r = .error x) : ∃ a, x = .arithmetic a := by
  cases r with
  | ok v => cases h
  | error a =>
    cases h
    exact ⟨a, rfl⟩

/-- Everything else is found by visits alone. -/
theorem compute_error {known : Known} {home : String} {e : ConstExpr} {x : EvalError}
    (h : compute known home e = .error x) :
    (∃ m n, x = .unknownConstant m n) ∨ ∃ a, x = .arithmetic a := by
  induction e with
  | literal v => cases h
  | ref n y =>
    simp only [compute] at h
    split at h
    · cases h
    · cases h
      exact .inl ⟨_, _, rfl⟩
  | negate e ih =>
    simp only [compute] at h
    split at h
    · rename_i he
      exact ih (he.trans h)
    · exact .inr (settle_error h)
  | binary op l r ihl ihr =>
    simp only [compute] at h
    split at h
    · rename_i he
      exact ihl (he.trans h)
    · split at h
      · rename_i he
        exact ihr (he.trans h)
      · exact .inr (settle_error h)

theorem visitAll_sound {visit : Known → Handle → String → Except EvalError Known}
    {p : Handle × String} {needed : List (Handle × String)}
    (h : ∀ d ∈ needed, Refers resolver p d ∧ ∀ known, Sound resolver d (visit known d.1 d.2))
    (known : Known) : Sound resolver p (visitAll visit known needed) := by
  intro m x hresult
  obtain ⟨d, hd, known, hvisit⟩ := visitAll_error hresult
  obtain ⟨hrefers, hsound⟩ := h d hd
  exact (hsound known m x hvisit).head hrefers

/-- By induction on the bound, along which the ancestors grow. -/
theorem visit_sound (hcons : Consistent resolver root) (bound : Nat) :
    ∀ {active : List Key} {known : Known} {k : Handle} {x : String}, Within resolver root k →
      Room resolver root bound active → Ancestors resolver root active (k, x) →
      Sound resolver (k, x) (visit resolver bound active known k x) := by
  induction bound with
  | zero => exact fun _ hroom _ => absurd hroom Room.bound_ne_zero
  | succ bound ih =>
    intro active known k x hk hroom hancestors
    rw [visit_succ]
    have hlooks := look_spec resolver active known k x
    generalize look resolver active known k x = found at hlooks
    cases hlooks with
    | known => exact sound_of_ne fun _ _ h => nomatch h
    | unknown => exact sound_of_ne fun _ _ h => nomatch h
    | stored => exact sound_of_ne fun _ _ h => nomatch h
    | cycle _ _ hactive =>
      rintro m y ⟨⟩
      exact ⟨k, rfl, .refl, hancestors.onCycle hk hactive⟩
    | tooHigh => exact sound_of_ne fun _ _ h => nomatch h
    | unresolved => exact sound_of_ne fun _ _ h => nomatch h
    | @pending c e needed _ hc he hactive _ ht =>
      have hbelow : ∀ d ∈ needed, Refers resolver (k, x) d ∧ ∀ known,
          Sound resolver d (visit resolver bound ((k.name, x) :: active) known d.1 d.2) := by
        intro d hd
        obtain ⟨m, hm, htarget⟩ := targets_mem ht d hd
        have hrefers : Refers resolver (k, x) d := ⟨c, e, m, hc, he, hm, htarget⟩
        exact ⟨hrefers, fun known => ih (hcons.follows hk htarget).within
          (hroom.cons hactive (mem_keys hk.reached hc)) (hancestors.cons hk hrefers)⟩
      have hneeded := visitAll_sound hbelow known
      dsimp only
      cases hall : visitAll (visit resolver bound ((k.name, x) :: active)) known needed with
      | error e =>
        rw [hall] at hneeded
        exact hneeded
      | ok later =>
        dsimp only
        cases hcompute : compute later k.name e with
        | error e' =>
          refine sound_of_ne fun m y h => ?_
          cases h
          rcases compute_error hcompute with ⟨_, _, h⟩ | ⟨_, h⟩ <;> cases h
        | ok v => exact sound_of_ne fun _ _ h => nomatch h

/-! ## The value and the cycle of a constant -/

theorem reports_of_evaluate (hcons : Consistent resolver root) {x m y : String}
    (h : root.evaluate x resolver = .error (.cycle m y)) : Reports resolver (root, x) m y := by
  have hsound : Sound resolver (root, x) (visit resolver (bound resolver root) [] [] root x) :=
    visit_sound hcons _ (.inl rfl) room_bound fun _ h => nomatch h
  rw [evaluate_eq_answer] at h
  generalize visit resolver (bound resolver root) [] [] root x = result at h hsound
  cases result with
  | error e =>
    cases h
    exact hsound m y rfl
  | ok known =>
    simp only [answer] at h
    split at h
    · cases h
    · cases h

theorem evaluate_ok_iff (hcons : Consistent resolver root) {x : String} {v : Value} :
    root.evaluate x resolver = .ok v ↔
      Denotes resolver root (.ref none x) v ∧ ¬ CycleBelow resolver (root, x) := by
  rw [evaluate_iff_yields hcons.namesSuffice ⟨root, .inl rfl, rfl⟩, denotes_iff_yields]
  refine ⟨fun h => ⟨h, ?_⟩, And.left⟩
  obtain ⟨n, hn⟩ := h
  exact Yields.not_cycleBelow (p := (root, x)) hn

end Evaluation

open Evaluation

/--
Evaluation of the constant `x` of `h` stops; it gives `v` exactly if `v` is the meaning of `x` and
no constant below it depends on itself; and it reports a cycle only where there is one.
-/
theorem Handle.evaluate_meaning (hs : List Handle) (h : Handle) (x : String)
    (hself : ∀ k, hs.find? (·.name == h.name) = some k → k = h) :
    let resolver := Resolver.ofHandles hs
    (∀ r, Answers resolver h x r ↔ r = h.evaluate x resolver) ∧
      (∀ v, h.evaluate x resolver = .ok v ↔
        Denotes resolver h (.ref none x) v ∧ ¬ CycleBelow resolver (h, x)) ∧
      (∀ m y, h.evaluate x resolver = .error (.cycle m y) → Reports resolver (h, x) m y) ∧
      (CycleBelow resolver (h, x) → ∀ v, h.evaluate x resolver ≠ .ok v) := by
  have hcons := consistent_ofHandles hself
  refine ⟨fun r => ⟨fun hr => ?_, fun hr => ?_⟩, fun v => evaluate_ok_iff hcons, ?_, ?_⟩
  · exact hr.unique (answers_evaluate x)
  · rw [hr]
    exact answers_evaluate x
  · exact fun m y => reports_of_evaluate hcons
  · intro hcycle v hv
    exact ((evaluate_ok_iff hcons).1 hv).2 hcycle

/-! ### A constant that is used twice, and one that depends on itself -/

def units : Handle :=
  ⟨0, ⟨"Units", .debug, [], [],
    [⟨"INCH", .int, .expr (.binary .add (.literal (.int 12)) (.literal (.int 13)))⟩]⟩,
    none, none, false⟩

def sizes : Handle :=
  ⟨1, ⟨"Sizes", .debug, ["Units"], [],
    [⟨"WIDTH", .int, .expr (.ref (some "Units") "INCH")⟩,
     ⟨"AREA", .int, .expr (.binary .mul (.ref none "WIDTH") (.ref (some "Units") "INCH"))⟩,
     ⟨"ENDLESS", .int, .expr (.negate (.ref (some "Sizes") "ENDLESS"))⟩]⟩,
    none, none, false⟩

theorem Handle.evaluate_meaning_sizes :
    (∀ k, [units, sizes].find? (·.name == sizes.name) = some k → k = sizes) ∧
      Answers (.ofHandles [units, sizes]) sizes "AREA" (.ok (.int 625)) ∧
      Denotes (.ofHandles [units, sizes]) sizes (.ref none "AREA") (.int 625) ∧
      ¬ CycleBelow (.ofHandles [units, sizes]) (sizes, "AREA") ∧
      CycleBelow (.ofHandles [units, sizes]) (sizes, "ENDLESS") := by
  have hself : ∀ k, [units, sizes].find? (·.name == sizes.name) = some k → k = sizes := by
    intro k hk
    have hfound : [units, sizes].find? (·.name == sizes.name) = some sizes := by decide +kernel
    exact Option.some_inj.1 (hk.symm.trans hfound)
  have harea : sizes.evaluate "AREA" (.ofHandles [units, sizes]) = .ok (.int 625) := by
    decide +kernel
  have hendless : sizes.evaluate "ENDLESS" (.ofHandles [units, sizes]) =
      .error (.cycle "Sizes" "ENDLESS") := by
    decide +kernel
  obtain ⟨hanswers, hok, -, -⟩ := Handle.evaluate_meaning [units, sizes] sizes "AREA" hself
  obtain ⟨-, -, hcycle, -⟩ := Handle.evaluate_meaning [units, sizes] sizes "ENDLESS" hself
  obtain ⟨hdenotes, hacyclic⟩ := (hok (.int 625)).1 harea
  exact ⟨hself, (hanswers _).2 harea.symm, hdenotes, hacyclic,
    (hcycle _ _ hendless).cycleBelow⟩

end Linkage
