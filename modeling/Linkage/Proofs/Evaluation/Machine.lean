import Linkage.Proofs.Evaluation

/-!
# Linkage.Proofs.Evaluation.Machine

Evaluation as a machine with an explicit stack, so that no chain of constants is too long for it,
and the recursive evaluation as its outcome.

* `look` — what there is to do for a constant when a visit comes to it.
* `perform` — one task of the machine: a visit puts what the constant needs on the stack, a finish
  computes it once all of that is known.
* `Runs m r` — from `m` the machine stops, with `r`.
* `leads_visit` — a recursive visit does to the machine what the tasks below its own do.
* `Answers h x r` — asked for the constant `x` of `h`, the machine stops and answers `r`.
* `answers_evaluate` — it stops on every constant, and answers what evaluation gives.

The recursion carries a bound and the machine has none. The bound is never reached: the active
constants are different ones of the modules at hand.
-/

namespace Linkage
namespace Evaluation

/-- What there is to do for a constant. -/
inductive Look where
  | known
  | stored (v : Value)
  | pending (e : ConstExpr) (needed : List (Handle × String))

def look (resolver : Resolver) (active : List Key) (known : Known) (h : Handle) (name : String) :
    Except EvalError Look :=
  if (known.lookup (h.name, name)).isSome then .ok .known
  else
    match h.interface.const? name with
    | none => .error (.unknownConstant h.name name)
    | some c =>
      match c.init with
      | .value v => .ok (.stored v)
      | .expr e =>
        if active.contains (h.name, name) then .error (.cycle h.name name)
        else if maxLevels < e.height then .error (.tooManyLevels h.name name)
        else
          match targets resolver h e.refs with
          | .error e => .error e
          | .ok needed => .ok (.pending e needed)

/-- The value of a constant all of whose references are known. -/
def finished (known : Known) (h : Handle) (name : String) : Except EvalError Value :=
  match h.interface.const? name with
  | none => .error (.unknownConstant h.name name)
  | some c =>
    match c.init with
    | .value v => .ok v
    | .expr e => compute known h.name e

inductive Task where
  | visit (h : Handle) (name : String)
  | finish (h : Handle) (name : String)

structure Machine where
  stack : List Task
  /-- The constants that are visited and not finished. -/
  active : List Key
  known : Known

/-- The first constant is visited first. -/
def visits (needed : List (Handle × String)) : List Task := needed.map fun d => .visit d.1 d.2

/-- Performs a task that was taken from the stack. -/
def perform (resolver : Resolver) : Task → Machine → Except EvalError Machine
  | .visit h name, ⟨stack, active, known⟩ =>
    match look resolver active known h name with
    | .error e => .error e
    | .ok .known => .ok ⟨stack, active, known⟩
    | .ok (.stored v) => .ok ⟨stack, active, ((h.name, name), v) :: known⟩
    | .ok (.pending _ needed) =>
      .ok ⟨visits needed ++ .finish h name :: stack, (h.name, name) :: active, known⟩
  | .finish h name, ⟨stack, active, known⟩ =>
    match finished known h name with
    | .error e => .error e
    | .ok v => .ok ⟨stack, active.erase (h.name, name), ((h.name, name), v) :: known⟩

inductive Runs (resolver : Resolver) : Machine → Except EvalError Known → Prop where
  | done {active : List Key} {known : Known} : Runs resolver ⟨[], active, known⟩ (.ok known)
  | failed {task : Task} {stack : List Task} {active : List Key} {known : Known} {e : EvalError} :
      perform resolver task ⟨stack, active, known⟩ = .error e →
      Runs resolver ⟨task :: stack, active, known⟩ (.error e)
  | next {task : Task} {stack : List Task} {active : List Key} {known : Known} {m : Machine}
      {r : Except EvalError Known} :
      perform resolver task ⟨stack, active, known⟩ = .ok m → Runs resolver m r →
      Runs resolver ⟨task :: stack, active, known⟩ r

/-- The machine that was asked for one constant. -/
def start (h : Handle) (name : String) : Machine := ⟨[.visit h name], [], []⟩

/-- What is answered for a constant when the machine has stopped. -/
def answer (h : Handle) (name : String) : Except EvalError Known → Except EvalError Value
  | .error e => .error e
  | .ok known =>
    match known.lookup (h.name, name) with
    | some v => .ok v
    | none => .error (.unknownConstant h.name name)

def Answers (resolver : Resolver) (h : Handle) (name : String) (r : Except EvalError Value) :
    Prop :=
  ∃ stopped, Runs resolver (start h name) stopped ∧ r = answer h name stopped

variable {resolver : Resolver} {root : Handle}

/-! ## The machine is deterministic -/

theorem Runs.unique {m : Machine} {r r' : Except EvalError Known} (h : Runs resolver m r)
    (h' : Runs resolver m r') : r = r' := by
  induction h with
  | done =>
    cases h' with
    | done => rfl
  | failed hp =>
    cases h' with
    | failed hp' =>
      cases hp.symm.trans hp'
      rfl
    | next hp' _ => cases hp.symm.trans hp'
  | next hp _ ih =>
    cases h' with
    | failed hp' => cases hp.symm.trans hp'
    | next hp' h' =>
      cases hp.symm.trans hp'
      exact ih h'

theorem Answers.unique {h : Handle} {name : String} {r r' : Except EvalError Value}
    (hr : Answers resolver h name r) (hr' : Answers resolver h name r') : r = r' := by
  obtain ⟨stopped, hruns, rfl⟩ := hr
  obtain ⟨stopped', hruns', rfl⟩ := hr'
  rw [hruns.unique hruns']

/-! ## Visits by what there is to do -/

/-- A visit looks, and visits what a pending constant needs before computing it. -/
theorem visit_succ {bound : Nat} {active : List Key} {known : Known} {h : Handle} {name : String} :
    visit resolver (bound + 1) active known h name =
      match look resolver active known h name with
      | .error e => .error e
      | .ok .known => .ok known
      | .ok (.stored v) => .ok (((h.name, name), v) :: known)
      | .ok (.pending e needed) =>
        match visitAll (visit resolver bound ((h.name, name) :: active)) known needed with
        | .error e => .error e
        | .ok later =>
          match compute later h.name e with
          | .error e => .error e
          | .ok v => .ok (((h.name, name), v) :: later) := by
  rw [visit]
  unfold look
  by_cases hknown : (known.lookup (h.name, name)).isSome
  · simp only [hknown, if_true]
  · simp only [hknown, Bool.false_eq_true, if_false]
    cases h.interface.const? name with
    | none => rfl
    | some c =>
      cases hi : c.init with
      | value v => simp only [hi]
      | expr e =>
        simp only [hi]
        by_cases hactive : active.contains (h.name, name)
        · simp only [hactive, if_true]
        · simp only [hactive, Bool.false_eq_true, if_false]
          by_cases hheight : maxLevels < e.height
          · simp only [hheight, if_true]
          · simp only [hheight, if_false]
            cases targets resolver h e.refs with
            | error e => rfl
            | ok needed => rfl

/-- What a look says about a constant. -/
inductive Looks (resolver : Resolver) (active : List Key) (known : Known) (h : Handle)
    (name : String) : Except EvalError Look → Prop where
  | known : (known.lookup (h.name, name)).isSome = true →
      Looks resolver active known h name (.ok .known)
  | unknown : h.interface.const? name = none →
      Looks resolver active known h name (.error (.unknownConstant h.name name))
  | stored {c : ConstDef} {v : Value} : (known.lookup (h.name, name)).isSome = false →
      h.interface.const? name = some c → c.init = .value v →
      Looks resolver active known h name (.ok (.stored v))
  | cycle {c : ConstDef} {e : ConstExpr} : h.interface.const? name = some c → c.init = .expr e →
      (h.name, name) ∈ active → Looks resolver active known h name (.error (.cycle h.name name))
  | tooHigh {c : ConstDef} {e : ConstExpr} : h.interface.const? name = some c →
      c.init = .expr e → maxLevels < e.height →
      Looks resolver active known h name (.error (.tooManyLevels h.name name))
  | unresolved {c : ConstDef} {e : ConstExpr} {m : String} : h.interface.const? name = some c →
      c.init = .expr e → targets resolver h e.refs = .error (.unresolvedModule m) →
      Looks resolver active known h name (.error (.unresolvedModule m))
  | pending {c : ConstDef} {e : ConstExpr} {needed : List (Handle × String)} :
      (known.lookup (h.name, name)).isSome = false → h.interface.const? name = some c →
      c.init = .expr e → (h.name, name) ∉ active → e.height ≤ maxLevels →
      targets resolver h e.refs = .ok needed →
      Looks resolver active known h name (.ok (.pending e needed))

theorem target_cases {home l : Handle} {m : Option String} (h : target resolver home m = .ok l) :
    (l = home ∧ m.getD home.name = home.name) ∨ ∃ n, m = some n ∧ resolver.get? n = some l := by
  unfold target at h
  split at h
  · cases h
    exact .inl ⟨rfl, rfl⟩
  · rename_i n
    split at h
    · rename_i hn
      cases h
      exact .inl ⟨rfl, hn⟩
    · split at h
      · rename_i hget
        cases h
        exact .inr ⟨n, rfl, hget⟩
      · cases h

theorem Reached.target {k l : Handle} {m : Option String} (hk : Reached resolver root k)
    (h : target resolver k m = .ok l) : Reached resolver root l := by
  rcases target_cases h with ⟨rfl, -⟩ | ⟨n, -, hget⟩
  · exact hk
  · exact .inr ⟨n, hget⟩

theorem target_error {home : Handle} {m : Option String} {e : EvalError}
    (h : target resolver home m = .error e) : ∃ n, e = .unresolvedModule n := by
  unfold target at h
  split at h
  · cases h
  · rename_i n
    split at h
    · cases h
    · split at h
      · cases h
      · cases h
        exact ⟨n, rfl⟩

theorem targets_error {home : Handle} {refs : List (Option String × String)} {e : EvalError}
    (h : targets resolver home refs = .error e) : ∃ n, e = .unresolvedModule n := by
  induction refs with
  | nil => cases h
  | cons p refs ih =>
    obtain ⟨m, x⟩ := p
    simp only [targets] at h
    split at h
    · rename_i ht
      cases h
      exact target_error ht
    · split at h
      · rename_i hts
        cases h
        exact ih hts
      · cases h

theorem look_spec (resolver : Resolver) (active : List Key) (known : Known) (h : Handle)
    (name : String) : Looks resolver active known h name (look resolver active known h name) := by
  unfold look
  split
  · exact .known ‹_›
  · rename_i hnew
    have hnew := Bool.eq_false_iff.2 hnew
    split
    · exact .unknown ‹_›
    · rename_i c hc
      split
      · exact .stored hnew hc ‹_›
      · rename_i e he
        split
        · exact .cycle hc he (List.contains_iff_mem.1 ‹_›)
        · rename_i hactive
          split
          · exact .tooHigh hc he ‹_›
          · rename_i hheight
            split
            · rename_i e' ht
              obtain ⟨m, rfl⟩ := targets_error ht
              exact .unresolved hc he ht
            · rename_i needed ht
              refine .pending hnew hc he ?_ (Nat.not_lt.1 hheight) ht
              exact fun hmem => hactive (List.contains_iff_mem.2 hmem)

/-! ## Modules that names are enough for -/

/--
Names tell the modules at hand apart: every module is found under its own name, and the module
asked for, if it is found at all, is the one found under its name.
-/
structure Consistent (resolver : Resolver) (root : Handle) : Prop where
  named : ∀ {m k}, resolver.get? m = some k → k.name = m
  self : ∀ {k}, resolver.get? root.name = some k → k = root

theorem Consistent.within (h : Consistent resolver root) {m : String} {k : Handle}
    (hk : resolver.get? m = some k) : Within resolver root k := by
  obtain rfl := h.named hk
  by_cases hname : k.name = root.name
  · rw [hname] at hk
    exact .inl (h.self hk)
  · exact .inr ⟨hname, hk⟩

theorem Consistent.follows (h : Consistent resolver root) {k l : Handle} {m : Option String}
    (hk : Within resolver root k) (ht : target resolver k m = .ok l) :
    Follows resolver root k m l := by
  rcases target_cases ht with ⟨rfl, hm⟩ | ⟨n, rfl, hget⟩
  · exact ⟨ht, hm.symm, hk⟩
  · exact ⟨ht, h.named hget, h.within hget⟩

theorem Resolver.get?_ofHandles (hs : List Handle) (m : String) :
    (Resolver.ofHandles hs).get? m = hs.find? (·.name == m) := by
  unfold Resolver.get? Resolver.ofHandles
  rw [List.find?_map, Option.map_map]
  exact congrFun Option.map_id _

theorem consistent_ofHandles {hs : List Handle}
    (h : ∀ k, hs.find? (·.name == root.name) = some k → k = root) :
    Consistent (.ofHandles hs) root where
  named := by
    intro m k hk
    rw [Resolver.get?_ofHandles] at hk
    exact beq_iff_eq.1 (List.find?_some (p := fun k : Handle => k.name == m) hk)
  self := by
    intro k hk
    rw [Resolver.get?_ofHandles] at hk
    exact h k hk

/-! ## The bound -/

/-- The active constants are different ones of the modules at hand, too many for the bound. -/
structure Room (resolver : Resolver) (root : Handle) (bound : Nat) (active : List Key) : Prop where
  nodup : active.Nodup
  subset : active ⊆ keys resolver root
  length_lt : (keys resolver root).length < bound + active.length

theorem room_bound : Room resolver root (bound resolver root) [] where
  nodup := List.nodup_nil
  subset := List.nil_subset _
  length_lt := by
    rw [← length_keys]
    exact Nat.lt_succ_self _

theorem Room.bound_ne_zero {active : List Key} : ¬ Room resolver root 0 active := by
  intro h
  have hle := (List.Nodup.subperm h.nodup h.subset).length_le
  have hlt := h.length_lt
  omega

theorem Room.cons {bound : Nat} {active : List Key} (h : Room resolver root (bound + 1) active)
    {key : Key} (hnew : key ∉ active) (hkey : key ∈ keys resolver root) :
    Room resolver root bound (key :: active) where
  nodup := List.nodup_cons.2 ⟨hnew, h.nodup⟩
  subset := List.cons_subset.2 ⟨hkey, h.subset⟩
  length_lt := by
    have hlt := h.length_lt
    rw [List.length_cons]
    omega

/-! ## Recursion and machine -/

/-- The machine gets from one state to the other, or stops with the error. -/
def Leads (resolver : Resolver) (m : Machine) : Except EvalError Machine → Prop
  | .error e => Runs resolver m (.error e)
  | .ok m' => ∀ r, Runs resolver m' r → Runs resolver m r

theorem leads_perform (task : Task) (stack : List Task) (active : List Key) (known : Known) :
    Leads resolver ⟨task :: stack, active, known⟩
      (perform resolver task ⟨stack, active, known⟩) := by
  cases hp : perform resolver task ⟨stack, active, known⟩ with
  | error e => exact .failed hp
  | ok m => exact fun r hr => .next hp hr

/-- One constant after the other, if a visit of each does what its task does. -/
theorem leads_visitAll {visit : Known → Handle → String → Except EvalError Known}
    {active : List Key} (needed : List (Handle × String)) :
    ∀ (known : Known) (stack : List Task),
      (∀ d ∈ needed, ∀ known stack, Leads resolver ⟨.visit d.1 d.2 :: stack, active, known⟩
        ((visit known d.1 d.2).map fun later => ⟨stack, active, later⟩)) →
      Leads resolver ⟨visits needed ++ stack, active, known⟩
        ((visitAll visit known needed).map fun later => ⟨stack, active, later⟩) := by
  induction needed with
  | nil => exact fun _ _ _ r hr => hr
  | cons d needed ih =>
    intro known stack h
    have hfirst := h d List.mem_cons_self known (visits needed ++ stack)
    rw [visitAll]
    cases hvisit : visit known d.1 d.2 with
    | error e =>
      rw [hvisit] at hfirst
      exact hfirst
    | ok next =>
      rw [hvisit] at hfirst
      have hrest := ih next stack fun d' hd' => h d' (List.mem_cons_of_mem _ hd')
      dsimp only
      cases hall : visitAll visit next needed with
      | error e =>
        rw [hall] at hrest
        exact hfirst _ hrest
      | ok later =>
        rw [hall] at hrest
        exact fun r hr => hfirst r (hrest r hr)

/-- By induction on the bound, which the active constants keep from running out. -/
theorem leads_visit (bound : Nat) :
    ∀ {active : List Key} (known : Known) {k : Handle} (x : String) (stack : List Task),
      Reached resolver root k → Room resolver root bound active →
      Leads resolver ⟨.visit k x :: stack, active, known⟩
        ((visit resolver bound active known k x).map fun later => ⟨stack, active, later⟩) := by
  induction bound with
  | zero =>
    intro active known k x stack _ hroom
    exact absurd hroom Room.bound_ne_zero
  | succ bound ih =>
    intro active known k x stack hk hroom
    have hstep : Leads resolver ⟨.visit k x :: stack, active, known⟩ _ :=
      leads_perform (.visit k x) stack active known
    have hlooks := look_spec resolver active known k x
    rw [visit_succ]
    rw [perform] at hstep
    cases hlook : look resolver active known k x with
    | error e =>
      rw [hlook] at hstep
      exact hstep
    | ok found =>
      rw [hlook] at hstep hlooks
      cases hlooks with
      | known => exact hstep
      | stored => exact hstep
      | @pending c e needed hnew hc he hactive hheight ht =>
        have hbelow : ∀ d ∈ needed, ∀ known stack,
            Leads resolver ⟨.visit d.1 d.2 :: stack, (k.name, x) :: active, known⟩
              ((visit resolver bound ((k.name, x) :: active) known d.1 d.2).map
                fun later => ⟨stack, (k.name, x) :: active, later⟩) := by
          intro d hd known stack
          obtain ⟨m, -, hm⟩ := targets_mem ht d hd
          exact ih known d.2 stack (hk.target hm) (hroom.cons hactive (mem_keys hk hc))
        have hneeded := leads_visitAll needed known (.finish k x :: stack) hbelow
        dsimp only
        cases hall : visitAll (visit resolver bound ((k.name, x) :: active)) known needed with
        | error e =>
          rw [hall] at hneeded
          exact hstep _ hneeded
        | ok later =>
          rw [hall] at hneeded
          -- What is left is the finish of this constant.
          have hfinish : Leads resolver ⟨.finish k x :: stack, (k.name, x) :: active, later⟩ _ :=
            leads_perform (.finish k x) stack ((k.name, x) :: active) later
          have hfinished : finished later k x = compute later k.name e := by
            simp only [finished, hc, he]
          rw [perform, hfinished, List.erase_cons_head] at hfinish
          dsimp only
          cases hcompute : compute later k.name e with
          | error e =>
            rw [hcompute] at hfinish
            exact hstep _ (hneeded _ hfinish)
          | ok v =>
            rw [hcompute] at hfinish
            exact fun r hr => hstep r (hneeded r (hfinish r hr))

theorem evaluate_eq_answer (x : String) : root.evaluate x resolver =
    answer root x (visit resolver (bound resolver root) [] [] root x) := by
  unfold Handle.evaluate
  cases visit resolver (bound resolver root) [] [] root x with
  | error e => rfl
  | ok known => rfl

/-- The machine stops on every constant, with what evaluation gives. -/
theorem answers_evaluate (x : String) :
    Answers resolver root x (root.evaluate x resolver) := by
  have hroom : Room resolver root (bound resolver root) [] := room_bound
  have hleads := leads_visit _ [] x [] (.inl rfl) hroom
  refine ⟨_, ?_, evaluate_eq_answer x⟩
  cases hvisit : visit resolver (bound resolver root) [] [] root x with
  | error e =>
    rw [hvisit] at hleads
    exact hleads
  | ok known =>
    rw [hvisit] at hleads
    exact hleads _ .done

end Evaluation
end Linkage
