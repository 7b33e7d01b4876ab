import Linkage.Evaluation
import Mathlib.Data.List.Perm.Subperm

/-!
# Linkage.Proofs.Evaluation

The values of constants at run time, by derivations.

* `Evaluates n k e v` — the expression `e`, standing in the module `k`, has the value `v`; chains
  of unfolded constants below it are `n` long.
* `HasValue n k x v` — the constant `x` of the module `k` has the value `v`.
* `targets_mem`, `targets_covers` — where the references of an expression lead.
* `keys` — the names by which the constants at hand are known.

Constants are known by names, so no two modules of one name may be involved: everything stays
within the module asked for and what the resolver has under other names.
-/

namespace Linkage
namespace Evaluation

section

variable (resolver : Resolver) (root : Handle)

/-- The module asked for, or one that the resolver has under a name of its own. -/
def Within (k : Handle) : Prop :=
  k = root ∨ (k.name ≠ root.name ∧ resolver.get? k.name = some k)

/-- A reference with this qualifier leads from one module into another. -/
structure Follows (k : Handle) (m : Option String) (l : Handle) : Prop where
  target : target resolver k m = .ok l
  name : l.name = m.getD k.name
  within : Within resolver root l

inductive Evaluates : Nat → Handle → ConstExpr → Value → Prop where
  | literal {k : Handle} {v : Value} : Evaluates 0 k (.literal v) v
  | stored {k l : Handle} {m : Option String} {x : String} {c : ConstDef} {v : Value} :
      Follows resolver root k m l → l.interface.const? x = some c → c.init = .value v →
      Evaluates 0 k (.ref m x) v
  | unfolded {n : Nat} {k l : Handle} {m : Option String} {x : String} {c : ConstDef}
      {e : ConstExpr} {v : Value} :
      Follows resolver root k m l → l.interface.const? x = some c → c.init = .expr e →
      e.height ≤ maxLevels → Evaluates n l e v → Evaluates (n + 1) k (.ref m x) v
  | negate {n : Nat} {k : Handle} {e : ConstExpr} {v w : Value} :
      Evaluates n k e v → v.negate = .ok w → Evaluates n k (.negate e) w
  | binary {n j : Nat} {k : Handle} {op : Operator} {l r : ConstExpr} {v w x : Value} :
      Evaluates n k l v → Evaluates j k r w → v.apply op w = .ok x →
      Evaluates (max n j) k (.binary op l r) x

inductive HasValue : Nat → Handle → String → Value → Prop where
  | stored {k : Handle} {x : String} {c : ConstDef} {v : Value} :
      k.interface.const? x = some c → c.init = .value v → HasValue 0 k x v
  | unfolded {n : Nat} {k : Handle} {x : String} {c : ConstDef} {e : ConstExpr} {v : Value} :
      k.interface.const? x = some c → c.init = .expr e → e.height ≤ maxLevels →
      Evaluates resolver root n k e v → HasValue (n + 1) k x v

end

variable {resolver : Resolver} {root : Handle}

/-! ## Derivations -/

theorem Within.eq_of_name_eq {k l : Handle} (hk : Within resolver root k)
    (hl : Within resolver root l) (h : k.name = l.name) : k = l := by
  rcases hk with rfl | ⟨hkn, hkr⟩
  · rcases hl with rfl | ⟨hln, -⟩
    · rfl
    · exact absurd h.symm hln
  · rcases hl with rfl | ⟨-, hlr⟩
    · exact absurd h hkn
    · rw [h, hlr] at hkr
      exact (Option.some_inj.1 hkr).symm

/-- Every reference in an expression with a value leads to a constant with a value. -/
theorem Evaluates.refs {n : Nat} {k : Handle} {e : ConstExpr} {v : Value}
    (h : Evaluates resolver root n k e v) :
    ∀ p ∈ e.refs, ∃ l j w, Follows resolver root k p.1 l ∧ HasValue resolver root j l p.2 w ∧
      j ≤ n := by
  induction h with
  | literal => exact fun _ hp => nomatch hp
  | stored hf hc hv =>
    intro p hp
    obtain rfl := List.mem_singleton.1 hp
    exact ⟨_, 0, _, hf, .stored hc hv, Nat.le_refl 0⟩
  | unfolded hf hc he hh hd _ =>
    intro p hp
    obtain rfl := List.mem_singleton.1 hp
    exact ⟨_, _, _, hf, .unfolded hc he hh hd, Nat.le_refl _⟩
  | negate _ _ ih => exact ih
  | binary _ _ _ ihl ihr =>
    intro p hp
    rcases List.mem_append.1 hp with hp | hp
    · obtain ⟨l, j, w, hf, hv, hj⟩ := ihl p hp
      exact ⟨l, j, w, hf, hv, Nat.le_trans hj (Nat.le_max_left _ _)⟩
    · obtain ⟨l, j, w, hf, hv, hj⟩ := ihr p hp
      exact ⟨l, j, w, hf, hv, Nat.le_trans hj (Nat.le_max_right _ _)⟩

/-! ## Targets -/

theorem targets_cons {k : Handle} {m : Option String} {x : String}
    {refs : List (Option String × String)} {needed : List (Handle × String)}
    (h : targets resolver k ((m, x) :: refs) = .ok needed) :
    ∃ l ls, target resolver k m = .ok l ∧ targets resolver k refs = .ok ls ∧
      needed = (l, x) :: ls := by
  simp only [targets] at h
  split at h
  · cases h
  · rename_i l ht
    split at h
    · cases h
    · rename_i ls hts
      cases h
      exact ⟨l, ls, ht, hts, rfl⟩

theorem targets_ok {k : Handle} (refs : List (Option String × String))
    (h : ∀ p ∈ refs, ∃ l, target resolver k p.1 = .ok l) :
    ∃ needed, targets resolver k refs = .ok needed := by
  induction refs with
  | nil => exact ⟨[], rfl⟩
  | cons p refs ih =>
    obtain ⟨m, x⟩ := p
    obtain ⟨l, hl⟩ := h _ List.mem_cons_self
    obtain ⟨ls, hls⟩ := ih fun p hp => h p (List.mem_cons_of_mem _ hp)
    exact ⟨(l, x) :: ls, by simp only [targets, hl, hls]⟩

/-- Each target is that of a reference. -/
theorem targets_mem {k : Handle} {refs : List (Option String × String)} :
    ∀ {needed : List (Handle × String)}, targets resolver k refs = .ok needed →
      ∀ d ∈ needed, ∃ m, (m, d.2) ∈ refs ∧ target resolver k m = .ok d.1 := by
  induction refs with
  | nil =>
    rintro needed ⟨⟩ d hd
    nomatch hd
  | cons p refs ih =>
    intro needed h d hd
    obtain ⟨l, ls, ht, hts, rfl⟩ := targets_cons h
    rcases List.mem_cons.1 hd with rfl | hd
    · exact ⟨p.1, List.mem_cons_self, ht⟩
    · obtain ⟨m, hm, ht'⟩ := ih hts d hd
      exact ⟨m, List.mem_cons_of_mem _ hm, ht'⟩

/-- Each reference has its target among them. -/
theorem targets_covers {k : Handle} {refs : List (Option String × String)} :
    ∀ {needed : List (Handle × String)}, targets resolver k refs = .ok needed →
      ∀ p ∈ refs, ∃ l, target resolver k p.1 = .ok l ∧ (l, p.2) ∈ needed := by
  induction refs with
  | nil => exact fun _ _ hp => nomatch hp
  | cons p refs ih =>
    intro needed h q hq
    obtain ⟨l, ls, ht, hts, rfl⟩ := targets_cons h
    rcases List.mem_cons.1 hq with rfl | hq
    · exact ⟨l, ht, List.mem_cons_self⟩
    · obtain ⟨l', ht', hmem⟩ := ih hts q hq
      exact ⟨l', ht', List.mem_cons_of_mem _ hmem⟩

/-- Visits of several constants stop at an error of one of them. -/
theorem visitAll_error {visit : Known → Handle → String → Except EvalError Known}
    {needed : List (Handle × String)} {x : EvalError} :
    ∀ {known : Known}, visitAll visit known needed = .error x →
      ∃ d ∈ needed, ∃ known, visit known d.1 d.2 = .error x := by
  induction needed with
  | nil => exact fun h => nomatch h
  | cons d needed ih =>
    intro known h
    rw [visitAll] at h
    split at h
    · rename_i hfirst
      exact ⟨d, List.mem_cons_self, known, hfirst.trans h⟩
    · obtain ⟨d', hd', hothers⟩ := ih h
      exact ⟨d', List.mem_cons_of_mem _ hd', hothers⟩

/-! ## Constants at hand -/

/-- All constants at hand. -/
def keys (resolver : Resolver) (root : Handle) : List Key :=
  root.interface.constants.map (fun c => (root.name, c.name)) ++
    resolver.entries.flatMap fun e => e.2.interface.constants.map fun c => (e.2.name, c.name)

theorem length_keys : (keys resolver root).length + 1 = bound resolver root := by
  simp only [keys, bound, List.length_append, List.length_map, List.length_flatMap]

/-- The module asked for, or one that the resolver has under whatever name. -/
def Reached (resolver : Resolver) (root : Handle) (k : Handle) : Prop :=
  k = root ∨ ∃ m, resolver.get? m = some k

theorem Within.reached {k : Handle} (h : Within resolver root k) : Reached resolver root k :=
  h.imp_right fun ⟨_, hk⟩ => ⟨k.name, hk⟩

theorem mem_keys {k : Handle} (hk : Reached resolver root k) {x : String} {c : ConstDef}
    (hc : k.interface.const? x = some c) : (k.name, x) ∈ keys resolver root := by
  have hmem := Interface.mem_of_const? hc
  obtain rfl := Interface.name_of_const? hc
  rcases hk with rfl | ⟨_, hr⟩
  · exact List.mem_append_left _ (List.mem_map.2 ⟨c, hmem, rfl⟩)
  · obtain ⟨e, he, rfl⟩ := Option.map_eq_some_iff.1 hr
    refine List.mem_append_right _ (List.mem_flatMap.2 ⟨e, List.mem_of_find?_eq_some he, ?_⟩)
    exact List.mem_map.2 ⟨c, hmem, rfl⟩

end Evaluation
end Linkage
