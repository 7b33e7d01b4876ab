import Linkage.Proofs.Evaluation.Machine

/-!
# Linkage.Proofs.Evaluation.Naming

Evaluation where names are enough to tell constants apart.

* `lead`, `Yields n i e v` — where references lead and which values expressions have, said by
  interfaces: two handles of one interface are as good as each other.
* `NamesSuffice S` — no two of the constants `S` share the names they are known by, and what these
  constants refer to is among them.
* `visit_accurate` — a visit of such a constant knows no value but right ones.
* `visit_finds` — it finds every value that there is a derivation of.
* `evaluate_iff_yields` — so evaluation gives a value exactly if there is a derivation of it.

Constants whose computation needs the current one have longer chains than it, so it is none of
them.
-/

namespace Linkage
namespace Evaluation

/-! ## Derivations -/

/-- The interface that a reference made in a module leads to. -/
def lead (resolver : Resolver) (i : Interface) : Option String → Option Interface
  | none => some i
  | some m => if m = i.name then some i else (resolver.get? m).map (·.interface)

/--
The expression `e`, standing in a module with the interface `i`, has the value `v`; chains of
unfolded constants below it are `n` long. A constant has the value of a reference to it from its
own module.
-/
inductive Yields (resolver : Resolver) : Nat → Interface → ConstExpr → Value → Prop where
  | literal {i : Interface} {v : Value} : Yields resolver 0 i (.literal v) v
  | stored {i j : Interface} {m : Option String} {x : String} {c : ConstDef} {v : Value} :
      lead resolver i m = some j → j.const? x = some c → c.init = .value v →
      Yields resolver 0 i (.ref m x) v
  | unfolded {n : Nat} {i j : Interface} {m : Option String} {x : String} {c : ConstDef}
      {e : ConstExpr} {v : Value} :
      lead resolver i m = some j → j.const? x = some c → c.init = .expr e →
      e.height ≤ maxLevels → Yields resolver n j e v → Yields resolver (n + 1) i (.ref m x) v
  | negate {n : Nat} {i : Interface} {e : ConstExpr} {v w : Value} :
      Yields resolver n i e v → v.negate = .ok w → Yields resolver n i (.negate e) w
  | binary {n k : Nat} {i : Interface} {op : Operator} {l r : ConstExpr} {v w x : Value} :
      Yields resolver n i l v → Yields resolver k i r w → v.apply op w = .ok x →
      Yields resolver (max n k) i (.binary op l r) x

variable {resolver : Resolver}

theorem lead_of_target {k l : Handle} {m : Option String} (h : target resolver k m = .ok l) :
    lead resolver k.interface m = some l.interface := by
  cases m with
  | none =>
    cases h
    rfl
  | some m =>
    simp only [target] at h
    unfold lead
    dsimp only
    split at h
    · rename_i hm
      cases h
      exact if_pos hm
    · rename_i hm
      split at h
      · rename_i hget
        cases h
        exact (if_neg hm).trans (congrArg _ hget)
      · cases h

theorem target_of_lead {k : Handle} {m : Option String} {j : Interface}
    (h : lead resolver k.interface m = some j) :
    ∃ l, target resolver k m = .ok l ∧ l.interface = j := by
  cases ht : target resolver k m with
  | ok l => exact ⟨l, rfl, Option.some_inj.1 ((lead_of_target ht).symm.trans h)⟩
  | error e =>
    cases m with
    | none => cases ht
    | some m =>
      simp only [target] at ht
      split at ht
      · cases ht
      · rename_i hm
        split at ht
        · cases ht
        · rename_i hget
          rw [lead, if_neg (show ¬ m = k.interface.name from hm), hget] at h
          cases h

namespace Yields

/-- Where a reference leads, its name has the same value. -/
theorem local_of_ref {n : Nat} {i j : Interface} {m : Option String} {x : String} {v : Value}
    (h : Yields resolver n i (.ref m x) v) (hm : lead resolver i m = some j) :
    Yields resolver n j (.ref none x) v := by
  cases h with
  | stored hj hc hv =>
    cases hj.symm.trans hm
    exact .stored rfl hc hv
  | unfolded hj hc he hh hd =>
    cases hj.symm.trans hm
    exact .unfolded rfl hc he hh hd

theorem ref_of_local {n : Nat} {i j : Interface} {m : Option String} {x : String} {v : Value}
    (h : Yields resolver n j (.ref none x) v) (hm : lead resolver i m = some j) :
    Yields resolver n i (.ref m x) v := by
  cases h with
  | stored hj hc hv =>
    cases hj
    exact .stored hm hc hv
  | unfolded hj hc he hh hd =>
    cases hj
    exact .unfolded hm hc he hh hd

theorem unique {n : Nat} {i : Interface} {e : ConstExpr} {v : Value}
    (h : Yields resolver n i e v) :
    ∀ {n' : Nat} {v' : Value}, Yields resolver n' i e v' → n = n' ∧ v = v' := by
  induction h with
  | literal =>
    intro n' v' h'
    cases h'
    exact ⟨rfl, rfl⟩
  | stored hj hc hv =>
    intro n' v' h'
    cases h' with
    | stored hj' hc' hv' =>
      cases hj.symm.trans hj'
      cases hc.symm.trans hc'
      cases hv.symm.trans hv'
      exact ⟨rfl, rfl⟩
    | unfolded hj' hc' he' _ _ =>
      cases hj.symm.trans hj'
      cases hc.symm.trans hc'
      cases hv.symm.trans he'
  | unfolded hj hc he _ _ ih =>
    intro n' v' h'
    cases h' with
    | stored hj' hc' hv' =>
      cases hj.symm.trans hj'
      cases hc.symm.trans hc'
      cases he.symm.trans hv'
    | unfolded hj' hc' he' _ hd' =>
      cases hj.symm.trans hj'
      cases hc.symm.trans hc'
      cases he.symm.trans he'
      obtain ⟨rfl, rfl⟩ := ih hd'
      exact ⟨rfl, rfl⟩
  | negate _ hw ih =>
    intro n' v' h'
    cases h' with
    | negate hd' hw' =>
      obtain ⟨rfl, rfl⟩ := ih hd'
      cases hw.symm.trans hw'
      exact ⟨rfl, rfl⟩
  | binary _ _ hx ihl ihr =>
    intro n' v' h'
    cases h' with
    | binary hl' hr' hx' =>
      obtain ⟨rfl, rfl⟩ := ihl hl'
      obtain ⟨rfl, rfl⟩ := ihr hr'
      cases hx.symm.trans hx'
      exact ⟨rfl, rfl⟩

/-- Every reference in an expression with a value has a value. -/
theorem refs {n : Nat} {i : Interface} {e : ConstExpr} {v : Value} (h : Yields resolver n i e v) :
    ∀ p ∈ e.refs, ∃ j k w, lead resolver i p.1 = some j ∧
      Yields resolver k j (.ref none p.2) w ∧ k ≤ n := by
  induction h with
  | literal => exact fun _ hp => nomatch hp
  | stored hj hc hv =>
    intro p hp
    obtain rfl := List.mem_singleton.1 hp
    exact ⟨_, 0, _, hj, .stored rfl hc hv, Nat.le_refl 0⟩
  | unfolded hj hc he hh hd _ =>
    intro p hp
    obtain rfl := List.mem_singleton.1 hp
    exact ⟨_, _, _, hj, .unfolded rfl hc he hh hd, Nat.le_refl _⟩
  | negate _ _ ih => exact ih
  | binary _ _ _ ihl ihr =>
    intro p hp
    rcases List.mem_append.1 hp with hp | hp
    · obtain ⟨j, k, w, hj, hw, hk⟩ := ihl p hp
      exact ⟨j, k, w, hj, hw, Nat.le_trans hk (Nat.le_max_left _ _)⟩
    · obtain ⟨j, k, w, hj, hw, hk⟩ := ihr p hp
      exact ⟨j, k, w, hj, hw, Nat.le_trans hk (Nat.le_max_right _ _)⟩

end Yields

/-! ## What is known -/

structure NamesSuffice (resolver : Resolver) (S : Interface → String → Prop) : Prop where
  closed : ∀ {i j : Interface} {x y : String} {c : ConstDef} {e : ConstExpr} {m : Option String},
    S i x → i.const? x = some c → c.init = .expr e → (m, y) ∈ e.refs →
    lead resolver i m = some j → j.name = m.getD i.name ∧ S j y
  same : ∀ {i j : Interface} {x : String}, S i x → S j x → i.name = j.name → i = j

/-- Whatever is known is the value of the constant of these names. -/
def Accurate (resolver : Resolver) (S : Interface → String → Prop) (known : Known) : Prop :=
  ∀ key v, known.lookup key = some v →
    ∃ i n, S i key.2 ∧ i.name = key.1 ∧ Yields resolver n i (.ref none key.2) v

/-- Whatever is known stays known. -/
def Extends (known later : Known) : Prop :=
  ∀ key v, known.lookup key = some v → later.lookup key = some v

variable {S : Interface → String → Prop}

theorem accurate_nil : Accurate resolver S [] := fun _ _ h => nomatch h

theorem Accurate.yields (hS : NamesSuffice resolver S) {known : Known}
    (h : Accurate resolver S known) {i : Interface} {x : String} (hx : S i x) {v : Value}
    (hv : known.lookup (i.name, x) = some v) : ∃ n, Yields resolver n i (.ref none x) v := by
  obtain ⟨j, n, hj, hname, hyields⟩ := h _ _ hv
  obtain rfl := hS.same hj hx hname
  exact ⟨n, hyields⟩

theorem Accurate.value (hS : NamesSuffice resolver S) {known : Known}
    (h : Accurate resolver S known) {i : Interface} {x : String} (hx : S i x) {n : Nat}
    {v w : Value} (hv : Yields resolver n i (.ref none x) v)
    (hw : known.lookup (i.name, x) = some w) : w = v := by
  obtain ⟨_, hyields⟩ := h.yields hS hx hw
  exact (hyields.unique hv).2

theorem Accurate.cons {known : Known} (h : Accurate resolver S known) {i : Interface} {x : String}
    (hx : S i x) {n : Nat} {v : Value} (hv : Yields resolver n i (.ref none x) v) :
    Accurate resolver S (((i.name, x), v) :: known) := by
  intro key w hw
  rw [List.lookup_cons] at hw
  split at hw
  · rename_i heq
    obtain rfl := beq_iff_eq.1 heq
    cases hw
    exact ⟨i, n, hx, rfl, hv⟩
  · exact h key w hw

theorem extends_cons {known later : Known} {key : Key} {v : Value}
    (h : (known.lookup key).isSome = false) (hext : Extends known later) :
    Extends known ((key, v) :: later) := by
  intro key' w hw
  rw [List.lookup_cons]
  split
  · rename_i heq
    obtain rfl := beq_iff_eq.1 heq
    rw [hw] at h
    cases h
  · exact hext key' w hw

/-! ## Nothing but right values -/

/-- What is computed from right values is right. -/
theorem compute_yields (hS : NamesSuffice resolver S) {known : Known}
    (hknown : Accurate resolver S known) {i : Interface} {e : ConstExpr} :
    ∀ {v : Value}, (∀ p ∈ e.refs, ∃ j, lead resolver i p.1 = some j ∧
        j.name = p.1.getD i.name ∧ S j p.2) →
      compute known i.name e = .ok v → ∃ n, Yields resolver n i e v := by
  induction e with
  | literal w =>
    intro v _ h
    cases h
    exact ⟨0, .literal⟩
  | ref m x =>
    intro v hrefs h
    obtain ⟨j, hj, hname, hx⟩ := hrefs _ List.mem_cons_self
    simp only [compute] at h
    split at h
    · rename_i w hw
      cases h
      obtain ⟨n, hn⟩ := hknown.yields hS hx (hname ▸ hw)
      exact ⟨n, hn.ref_of_local hj⟩
    · cases h
  | negate e ih =>
    intro v hrefs h
    simp only [compute] at h
    split at h
    · cases h
    · rename_i w hw
      obtain ⟨n, hn⟩ := ih hrefs hw
      cases hneg : w.negate with
      | error e' =>
        rw [hneg] at h
        cases h
      | ok u =>
        rw [hneg] at h
        cases h
        exact ⟨n, .negate hn hneg⟩
  | binary op l r ihl ihr =>
    intro v hrefs h
    simp only [compute] at h
    split at h
    · cases h
    · rename_i w hw
      split at h
      · cases h
      · rename_i u hu
        obtain ⟨n, hn⟩ := ihl (fun p hp => hrefs p (List.mem_append_left _ hp)) hw
        obtain ⟨k, hk⟩ := ihr (fun p hp => hrefs p (List.mem_append_right _ hp)) hu
        cases hop : w.apply op u with
        | error e' =>
          rw [hop] at h
          cases h
        | ok z =>
          rw [hop] at h
          cases h
          exact ⟨max n k, .binary hn hk hop⟩

theorem visitAll_accurate {visit : Known → Handle → String → Except EvalError Known}
    (needed : List (Handle × String)) :
    ∀ {known later : Known}, Accurate resolver S known →
      (∀ d ∈ needed, ∀ {known later}, Accurate resolver S known →
        visit known d.1 d.2 = .ok later → Accurate resolver S later) →
      visitAll visit known needed = .ok later → Accurate resolver S later := by
  induction needed with
  | nil =>
    intro known later hknown _ h
    cases h
    exact hknown
  | cons d needed ih =>
    intro known later hknown hvisit h
    simp only [visitAll] at h
    split at h
    · cases h
    · rename_i next hnext
      exact ih (hvisit d List.mem_cons_self hknown hnext)
        (fun d' hd' => hvisit d' (List.mem_cons_of_mem _ hd')) h

theorem visit_accurate (hS : NamesSuffice resolver S) (bound : Nat) :
    ∀ {active : List Key} {known later : Known} {k : Handle} {x : String}, S k.interface x →
      Accurate resolver S known → visit resolver bound active known k x = .ok later →
      Accurate resolver S later := by
  induction bound with
  | zero => exact fun _ _ h => nomatch h
  | succ bound ih =>
    intro active known later k x hx hknown h
    rw [visit_succ] at h
    have hlooks := look_spec resolver active known k x
    generalize look resolver active known k x = found at h hlooks
    cases hlooks with
    | known =>
      cases h
      exact hknown
    | stored _ hc hv =>
      cases h
      exact hknown.cons hx (.stored rfl hc hv)
    | unknown => cases h
    | cycle => cases h
    | tooHigh => cases h
    | unresolved => cases h
    | @pending c e needed _ hc he _ hheight ht =>
      dsimp only at h
      split at h
      · cases h
      · rename_i found hall
        have hfound : Accurate resolver S found := by
          refine visitAll_accurate needed hknown (fun d hd => ?_) hall
          obtain ⟨m, hm, htarget⟩ := targets_mem ht d hd
          exact ih (hS.closed hx hc he hm (lead_of_target htarget)).2
        split at h
        · cases h
        · rename_i v hv
          cases h
          obtain ⟨n, hn⟩ := compute_yields hS hfound (i := k.interface) (fun p hp => by
            obtain ⟨l, hl, -⟩ := targets_covers ht p hp
            exact ⟨_, lead_of_target hl, hS.closed hx hc he hp (lead_of_target hl)⟩) hv
          exact hfound.cons hx (.unfolded rfl hc he hheight hn)

/-! ## Every value -/

theorem Extends.trans {known next later : Known} (h : Extends known next)
    (h' : Extends next later) : Extends known later :=
  fun key v hv => h' key v (h key v hv)

theorem Extends.isSome {known later : Known} (h : Extends known later) {key : Key}
    (hkey : (known.lookup key).isSome = true) : (later.lookup key).isSome = true := by
  obtain ⟨v, hv⟩ := Option.isSome_iff_exists.1 hkey
  rw [h key v hv]
  rfl

theorem compute_ok (hS : NamesSuffice resolver S) {known : Known}
    (hknown : Accurate resolver S known) {n : Nat} {i : Interface} {e : ConstExpr} {v : Value}
    (h : Yields resolver n i e v)
    (hrefs : ∀ p ∈ e.refs, ∀ j, lead resolver i p.1 = some j →
      j.name = p.1.getD i.name ∧ S j p.2 ∧ (known.lookup (j.name, p.2)).isSome = true) :
    compute known i.name e = .ok v := by
  have href {n : Nat} {i : Interface} {m : Option String} {x : String} {v : Value}
      (h : Yields resolver n i (.ref m x) v)
      (hrefs : ∀ j, lead resolver i m = some j →
        j.name = m.getD i.name ∧ S j x ∧ (known.lookup (j.name, x)).isSome = true) :
      compute known i.name (.ref m x) = .ok v := by
    obtain ⟨j, _, _, hj, -⟩ := h.refs _ List.mem_cons_self
    obtain ⟨hname, hx, hsome⟩ := hrefs j hj
    obtain ⟨w, hw⟩ := Option.isSome_iff_exists.1 hsome
    obtain rfl := hknown.value hS hx (h.local_of_ref hj) hw
    rw [hname] at hw
    simp only [compute, hw]
  induction h with
  | literal => rfl
  | stored hj hc hv => exact href (.stored hj hc hv) (hrefs _ List.mem_cons_self)
  | unfolded hj hc he hh hd _ =>
    exact href (.unfolded hj hc he hh hd) (hrefs _ List.mem_cons_self)
  | negate _ hw ih => simp only [compute, ih hrefs, hw, settle]
  | binary _ _ hx ihl ihr =>
    simp only [compute, ihl fun p hp => hrefs p (List.mem_append_left _ hp),
      ihr fun p hp => hrefs p (List.mem_append_right _ hp), hx, settle]

/-- What was known stays known, and so does the constant that was visited. -/
def Finds (resolver : Resolver) (S : Interface → String → Prop) (known : Known) (key : Key)
    (result : Except EvalError Known) : Prop :=
  ∃ later, result = .ok later ∧ Accurate resolver S later ∧ Extends known later ∧
    (later.lookup key).isSome = true

theorem Accurate.finds {known later : Known} (h : Accurate resolver S later)
    (hext : Extends known later) {i : Interface} {x : String} (hx : S i x)
    (hnew : (known.lookup (i.name, x)).isSome = false) {n : Nat} {v : Value}
    (hv : Yields resolver n i (.ref none x) v) :
    Finds resolver S known (i.name, x) (.ok (((i.name, x), v) :: later)) := by
  refine ⟨_, rfl, h.cons hx hv, extends_cons hnew hext, ?_⟩
  rw [List.lookup_cons_self]
  rfl

theorem visitAll_finds {visit : Known → Handle → String → Except EvalError Known}
    (needed : List (Handle × String)) :
    ∀ {known : Known}, Accurate resolver S known →
      (∀ d ∈ needed, ∀ {known}, Accurate resolver S known →
        Finds resolver S known (d.1.name, d.2) (visit known d.1 d.2)) →
      ∃ later, visitAll visit known needed = .ok later ∧ Accurate resolver S later ∧
        Extends known later ∧ ∀ d ∈ needed, (later.lookup (d.1.name, d.2)).isSome = true := by
  induction needed with
  | nil => exact fun hknown _ => ⟨_, rfl, hknown, fun _ _ h => h, fun _ hd => nomatch hd⟩
  | cons d needed ih =>
    intro known hknown hvisit
    obtain ⟨next, hnext, haccurate, hext, hfound⟩ := hvisit d List.mem_cons_self hknown
    obtain ⟨later, hlater, haccurate', hext', hfound'⟩ :=
      ih haccurate fun d' hd' => hvisit d' (List.mem_cons_of_mem _ hd')
    refine ⟨later, ?_, haccurate', hext.trans hext', fun d' hd' => ?_⟩
    · simp only [visitAll, hnext, hlater]
    · rcases List.mem_cons.1 hd' with rfl | hd'
      · exact hext'.isSome hfound
      · exact hfound' d' hd'

/-- The active constants have longer chains than `n`. -/
def Waiting (resolver : Resolver) (S : Interface → String → Prop) (active : List Key) (n : Nat) :
    Prop :=
  ∀ key ∈ active, ∃ i k v, S i key.2 ∧ i.name = key.1 ∧ Yields resolver k i (.ref none key.2) v ∧
    n < k

theorem waiting_nil {n : Nat} : Waiting resolver S [] n := fun _ h => nomatch h

theorem Waiting.not_mem (hS : NamesSuffice resolver S) {active : List Key} {n : Nat}
    (h : Waiting resolver S active n) {i : Interface} {x : String} (hx : S i x) {v : Value}
    (hv : Yields resolver n i (.ref none x) v) : (i.name, x) ∉ active := by
  intro hmem
  obtain ⟨j, k, w, hj, hname, hw, hlt⟩ := h _ hmem
  obtain rfl := hS.same hj hx hname
  obtain ⟨rfl, -⟩ := hv.unique hw
  exact Nat.lt_irrefl _ hlt

/-- A constant joins those that wait while the shorter chains below it are looked at. -/
theorem Waiting.cons {active : List Key} {n k : Nat} (h : Waiting resolver S active n)
    {i : Interface} {x : String} (hx : S i x) {v : Value}
    (hv : Yields resolver n i (.ref none x) v) (hk : k < n) :
    Waiting resolver S ((i.name, x) :: active) k := by
  intro key hmem
  rcases List.mem_cons.1 hmem with rfl | hmem
  · exact ⟨i, n, v, hx, rfl, hv, hk⟩
  · obtain ⟨j, l, w, hj, hname, hw, hlt⟩ := h key hmem
    exact ⟨j, l, w, hj, hname, hw, Nat.lt_trans hk hlt⟩

theorem visit_finds (hS : NamesSuffice resolver S) {root : Handle} (bound : Nat) :
    ∀ {n : Nat} {active : List Key} {known : Known} {k : Handle} {x : String} {v : Value},
      Reached resolver root k → S k.interface x → Yields resolver n k.interface (.ref none x) v →
      Accurate resolver S known → Waiting resolver S active n →
      Room resolver root bound active →
      Finds resolver S known (k.name, x) (visit resolver bound active known k x) := by
  induction bound with
  | zero => exact fun _ _ _ _ _ hroom => absurd hroom Room.bound_ne_zero
  | succ bound ih =>
    intro n active known k x v hk hx hv hknown hwaiting hroom
    have hnot := hwaiting.not_mem hS hx hv
    rw [visit_succ]
    have hlooks := look_spec resolver active known k x
    generalize look resolver active known k x = found at hlooks
    cases hlooks with
    | known hsome => exact ⟨known, rfl, hknown, fun _ _ h => h, hsome⟩
    | stored hnew hc hi =>
      exact hknown.finds (fun _ _ h => h) hx hnew (.stored rfl hc hi)
    | cycle _ _ hactive => exact absurd hactive hnot
    | unknown hc =>
      cases hv with
      | stored hj hc' _ =>
        cases hj
        cases hc.symm.trans hc'
      | unfolded hj hc' _ _ _ =>
        cases hj
        cases hc.symm.trans hc'
    | tooHigh hc he hheight =>
      cases hv with
      | stored hj hc' hi =>
        cases hj
        cases hc.symm.trans hc'
        cases he.symm.trans hi
      | unfolded hj hc' he' hheight' _ =>
        cases hj
        cases hc.symm.trans hc'
        cases he.symm.trans he'
        exact absurd hheight' (Nat.not_le.2 hheight)
    | @unresolved c e m hc he ht =>
      cases hv with
      | stored hj hc' hi =>
        cases hj
        cases hc.symm.trans hc'
        cases he.symm.trans hi
      | unfolded hj hc' he' _ hd =>
        cases hj
        cases hc.symm.trans hc'
        cases he.symm.trans he'
        have htargets : ∀ p ∈ e.refs, ∃ l, target resolver k p.1 = .ok l := by
          intro p hp
          obtain ⟨j, _, _, hj, -⟩ := hd.refs p hp
          obtain ⟨l, hl, -⟩ := target_of_lead hj
          exact ⟨l, hl⟩
        obtain ⟨needed, hneeded⟩ := targets_ok _ htargets
        cases ht.symm.trans hneeded
    | @pending c e needed hnew hc he hactive hheight ht =>
      have hv' := hv
      cases hv with
      | stored hj hc' hi =>
        cases hj
        cases hc.symm.trans hc'
        cases he.symm.trans hi
      | @unfolded n _ _ _ _ _ _ _ hj hc' he' _ hd =>
        cases hj
        cases hc.symm.trans hc'
        cases he.symm.trans he'
        have hbelow : ∀ d ∈ needed, ∀ {known : Known}, Accurate resolver S known →
            Finds resolver S known (d.1.name, d.2)
              (visit resolver bound ((k.name, x) :: active) known d.1 d.2) := by
          intro d hd' known hknown
          obtain ⟨m, hm, htarget⟩ := targets_mem ht d hd'
          have hlead := lead_of_target htarget
          obtain ⟨j, i, w, hj, hw, hi⟩ := hd.refs _ hm
          cases hlead.symm.trans hj
          exact ih (hk.target htarget) (hS.closed hx hc he hm hlead).2 hw hknown
            (hwaiting.cons hx hv' (Nat.lt_succ_of_le hi)) (hroom.cons hactive (mem_keys hk hc))
        obtain ⟨later, hlater, haccurate, hext, hfound⟩ := visitAll_finds needed hknown hbelow
        have hcompute : compute later k.name e = .ok v := by
          refine compute_ok hS haccurate hd fun p hp j hj => ?_
          obtain ⟨l, hl, hmem⟩ := targets_covers ht p hp
          cases (lead_of_target hl).symm.trans hj
          obtain ⟨hname, hS'⟩ := hS.closed hx hc he hp hj
          exact ⟨hname, hS', hfound _ hmem⟩
        simp only [hlater, hcompute]
        exact haccurate.finds hext hx hnew hv'

/-! ## Evaluation -/

/-- Evaluation gives the value that there is a derivation of, and no other. -/
theorem evaluate_iff_yields (hS : NamesSuffice resolver S) {h : Handle} {x : String}
    (hx : S h.interface x) {v : Value} :
    h.evaluate x resolver = .ok v ↔ ∃ n, Yields resolver n h.interface (.ref none x) v := by
  have haccurate {later : Known}
      (hlater : visit resolver (bound resolver h) [] [] h x = .ok later) :
      Accurate resolver S later :=
    visit_accurate hS _ hx accurate_nil hlater
  rw [evaluate_eq_answer]
  constructor
  · intro hv
    generalize hresult : visit resolver (bound resolver h) [] [] h x = result at hv
    cases result with
    | error e => cases hv
    | ok later =>
      simp only [answer] at hv
      split at hv
      · rename_i w hw
        cases hv
        exact (haccurate hresult).yields hS hx hw
      · cases hv
  · rintro ⟨n, hv⟩
    obtain ⟨later, hlater, hright, -, hsome⟩ := visit_finds hS _ (.inl rfl) hx hv accurate_nil
      waiting_nil (show Room resolver h _ [] from room_bound)
    obtain ⟨w, hw⟩ := Option.isSome_iff_exists.1 hsome
    obtain rfl := hright.value hS hx hv hw
    simp only [hlater, answer, hw]

/-! ## Modules that have their names to themselves -/

theorem Evaluates.yields {root k : Handle} {n : Nat} {e : ConstExpr} {v : Value}
    (h : Evaluates resolver root n k e v) : Yields resolver n k.interface e v := by
  induction h with
  | literal => exact .literal
  | stored hf hc hv => exact .stored (lead_of_target hf.target) hc hv
  | unfolded hf hc he hh _ ih => exact .unfolded (lead_of_target hf.target) hc he hh ih
  | negate _ hw ih => exact .negate ih hw
  | binary _ _ hx ihl ihr => exact .binary ihl ihr hx

theorem HasValue.yields {root k : Handle} {n : Nat} {x : String} {v : Value}
    (h : HasValue resolver root n k x v) : Yields resolver n k.interface (.ref none x) v := by
  cases h with
  | stored hc hv => exact .stored rfl hc hv
  | unfolded hc he hh hd => exact .unfolded rfl hc he hh hd.yields

/-- The constants with values within the modules at hand. -/
theorem namesSuffice_hasValue (resolver : Resolver) (root : Handle) :
    NamesSuffice resolver fun i x =>
      ∃ k n v, Within resolver root k ∧ k.interface = i ∧ HasValue resolver root n k x v where
  closed := by
    rintro _ j x y c e m ⟨k, n, v, -, rfl, hv⟩ hc he hm hj
    cases hv with
    | stored hc' hi =>
      cases hc.symm.trans hc'
      cases he.symm.trans hi
    | unfolded hc' he' _ hd =>
      cases hc.symm.trans hc'
      cases he.symm.trans he'
      obtain ⟨l, i, w, hf, hw, -⟩ := hd.refs _ hm
      cases (lead_of_target hf.target).symm.trans hj
      exact ⟨hf.name, l, i, w, hf.within, rfl, hw⟩
  same := by
    rintro _ _ x ⟨k, -, -, hk, rfl, -⟩ ⟨l, -, -, hl, rfl, -⟩ hname
    rw [hk.eq_of_name_eq hl hname]

end Evaluation

open Evaluation

theorem Handle.evaluate_of_hasValue {resolver : Resolver} {root : Handle} {n : Nat} {x : String}
    {v : Value} (h : HasValue resolver root n root x v) : root.evaluate x resolver = .ok v :=
  (evaluate_iff_yields (namesSuffice_hasValue resolver root)
    ⟨root, n, v, .inl rfl, rfl, h⟩).2 ⟨n, h.yields⟩

end Linkage
