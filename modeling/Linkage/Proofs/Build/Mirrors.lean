import Linkage.Proofs.Build.Accepted
import Linkage.Proofs.Evaluation

/-!
# Linkage.Proofs.Build.Mirrors

From values at compile time to values at run time.

* `Resolver.Agrees` — a resolver has the modules that the compile saw.
* `Mirrors` — what besides has to hold of the constants in question.
* `evaluates_of_derives` — then constants of other modules have the values that the compile found.
* `hasValue_of_constantAt` — and so have the constants of the debug module, by induction on their
  dependencies.

Other modules may refer back to the module being compiled. At compile time they refer to what its
name stood for until then, at run time to the new module, so what they refer to has to have the
same value in both.
-/

namespace Linkage

open Evaluation

/-! ## Constants of other modules -/

/-- Other modules than this one are found at run time as the compile found them. -/
structure Resolver.Agrees (resolver : Resolver) (snapshot : Snapshot) (root : Handle) : Prop where
  handles : ∀ m r, m ≠ root.name → snapshot.get? m = some r →
    ∃ k, resolver.get? m = some k ∧ k.interface = r.interface
  shallow : ∀ m r, snapshot.get? m = some r → r.interface.Shallow

/--
With a constant in question come those that its initializer refers to. Those of the module being
compiled have at run time the values that the compile found.
-/
structure Mirrors (snapshot : Snapshot) (resolver : Resolver) (root : Handle)
    (needed : String → String → Prop) : Prop extends resolver.Agrees snapshot root where
  closed : ∀ m x c e, needed m x → m ≠ root.name → snapshot.const? m x = some c →
    c.init = .expr e → ∀ p ∈ e.refs, needed (p.1.getD m) p.2
  inside : ∀ x c v, needed root.name x → snapshot.const? root.name x = some c →
    snapshot.HasValue root.name c v →
    resolver.get? root.name = some root ∧ ∃ n, HasValue resolver root n root x v

theorem Evaluation.Follows.evaluates {resolver : Resolver} {root k l : Handle} {q : Option String}
    (hf : Follows resolver root k q l) {n : Nat} {x : String} {v : Value}
    (h : HasValue resolver root n l x v) : Evaluates resolver root n k (.ref q x) v := by
  cases h with
  | stored hc hv => exact .stored hf hc hv
  | unfolded hc he hh hd => exact .unfolded hf hc he hh hd

namespace Mirrors

variable {snapshot : Snapshot} {resolver : Resolver} {root : Handle}
  {needed : String → String → Prop}

/-- The module of a constant in question, with its name. -/
theorem handle (h : Mirrors snapshot resolver root needed) {m x : String} {c : ConstDef}
    (hm : m ≠ root.name) (hc : snapshot.const? m x = some c) :
    ∃ k, resolver.get? m = some k ∧ k.name = m ∧ k.interface.const? x = some c ∧
      k.interface.Shallow := by
  obtain ⟨r, hr, hx⟩ := Snapshot.const?_eq_some.1 hc
  obtain ⟨k, hk, hi⟩ := h.handles m r hm hr
  have hname : k.name = m := by
    rw [Handle.name, hi]
    exact Snapshot.name_of_get? hr
  exact ⟨k, hk, hname, hi ▸ hx, hi ▸ h.shallow m r hr⟩

/-- Where a reference to another module leads at run time. -/
theorem follows (h : Mirrors snapshot resolver root needed) {k : Handle} {q : Option String}
    {x : String} {c : ConstDef} (hk : k = root ∨ resolver.get? k.name = some k)
    (hm : q.getD k.name ≠ root.name) (hc : snapshot.const? (q.getD k.name) x = some c) :
    ∃ l, Follows resolver root k q l ∧ l.interface.const? x = some c ∧ l.interface.Shallow ∧
      resolver.get? l.name = some l := by
  obtain ⟨l, hl, hname, hconst, hshallow⟩ := h.handle hm hc
  have hself : l.name = k.name → l = k := by
    intro heq
    rcases hk with rfl | hk
    · exact absurd (hname.symm.trans heq) hm
    · rw [← heq, hname, hl] at hk
      exact Option.some_inj.1 hk
  refine ⟨l, ⟨?_, hname, .inr ⟨hname ▸ hm, by rw [hname]; exact hl⟩⟩, hconst, hshallow,
    by rw [hname]; exact hl⟩
  cases q with
  | none =>
    rw [hself hname]
    rfl
  | some m =>
    unfold target
    dsimp only
    split
    · rename_i hm
      rw [hself (hname.trans hm)]
    · have hl : resolver.get? m = some l := hl
      simp only [hl]

/-- A reference from another module back to the one being compiled. -/
theorem evaluates_inside (h : Mirrors snapshot resolver root needed) {k : Handle}
    (hk : k.name ≠ root.name) {q : Option String} {x : String} {c : ConstDef} {v : Value}
    (hq : q.getD k.name = root.name) (hn : needed (q.getD k.name) x)
    (hc : snapshot.const? (q.getD k.name) x = some c)
    (hv : snapshot.HasValue (q.getD k.name) c v) :
    ∃ j, Evaluates resolver root j k (.ref q x) v := by
  rw [hq] at hn hc hv
  obtain ⟨hroot, n, hvalue⟩ := h.inside x c v hn hc hv
  cases q with
  | none => exact absurd hq hk
  | some m =>
    obtain rfl : m = root.name := hq
    have hf : Follows resolver root k (some root.name) root := by
      refine ⟨?_, rfl, .inl rfl⟩
      simp only [target, hk.symm, if_false, hroot]
    exact ⟨n, hf.evaluates hvalue⟩

theorem evaluates_of_derives (h : Mirrors snapshot resolver root needed) {n : Nat} {m : String}
    {e : ConstExpr} {v : Value} (hd : snapshot.Derives n m e v) (hle : n ≤ Snapshot.externalLevels)
    (hm : m ≠ root.name) :
    ∀ {k : Handle}, k.name = m → resolver.get? m = some k →
      (∀ p ∈ e.refs, needed (p.1.getD m) p.2) → ∃ j, Evaluates resolver root j k e v := by
  induction hd with
  | literal => exact fun _ _ _ => ⟨0, .literal⟩
  | @stored n m q x c v hc hv =>
    intro k hk hr hneeded
    subst hk
    by_cases hq : q.getD k.name = root.name
    · exact h.evaluates_inside hm hq (hneeded _ List.mem_cons_self) hc
        (Snapshot.hasValue_of_value hv)
    · obtain ⟨l, hf, hconst, -, -⟩ := h.follows (.inr hr) hq hc
      exact ⟨0, .stored hf hconst hv⟩
  | @unfolded n m q x c e v hc he hd ih =>
    intro k hk hr hneeded
    subst hk
    have hn := hneeded _ List.mem_cons_self
    have hle' := Nat.le_of_succ_le hle
    by_cases hq : q.getD k.name = root.name
    · exact h.evaluates_inside hm hq hn hc (Snapshot.hasValue_of_derives he (hd.mono hle'))
    · obtain ⟨l, hf, hconst, hshallow, hl⟩ := h.follows (.inr hr) hq hc
      have hheight : e.height ≤ maxLevels := hshallow c (Interface.mem_of_const? hconst) e he
      obtain ⟨j, hj⟩ := ih hle' hq hf.name (by rw [← hf.name]; exact hl)
        (h.closed _ _ c e hn hq hc he)
      exact ⟨j + 1, .unfolded hf hconst he hheight hj⟩
  | negate _ hw ih =>
    intro k hk hr hneeded
    obtain ⟨j, hj⟩ := ih (Nat.le_of_succ_le hle) hm hk hr hneeded
    exact ⟨j, .negate hj hw⟩
  | binary _ _ hx ihl ihr =>
    intro k hk hr hneeded
    have hle' := Nat.le_of_succ_le hle
    obtain ⟨i, hi⟩ := ihl hle' hm hk hr fun p hp => hneeded p (List.mem_append_left _ hp)
    obtain ⟨j, hj⟩ := ihr hle' hm hk hr fun p hp => hneeded p (List.mem_append_right _ hp)
    exact ⟨max i j, .binary hi hj hx⟩

/-- A reference from the module being compiled to a constant of another one. -/
theorem evaluates_imported (h : Mirrors snapshot resolver root needed) {m x : String}
    {c : ConstDef} {v : Value} (hn : needed m x) (hm : m ≠ root.name)
    (hc : snapshot.const? m x = some c) (hv : snapshot.HasValue m c v) :
    ∃ j, Evaluates resolver root j root (.ref (some m) x) v := by
  obtain ⟨l, hf, hconst, hshallow, hl⟩ := h.follows (q := some m) (.inl rfl) hm hc
  unfold Snapshot.HasValue at hv
  split at hv
  · rename_i w hw
    subst hv
    exact ⟨0, .stored hf hconst hw⟩
  · rename_i e he
    have hheight : e.height ≤ maxLevels := hshallow c (Interface.mem_of_const? hconst) e he
    have hname : l.name = m := hf.name
    obtain ⟨j, hj⟩ := h.evaluates_of_derives hv (Nat.le_refl _) hm hname
      (by rw [← hname]; exact hl) (h.closed m x c e hn hm hc he)
    exact ⟨j + 1, .unfolded hf hconst he hheight hj⟩

end Mirrors

/-! ## Constants of the module -/

theorem evaluates_of_eval {s : Scope} {resolver : Resolver} {root : Handle}
    {needed : String → String → Prop} (h : Mirrors s.snapshot resolver root needed)
    (hname : root.name = s.module) {e : Script.Expr} {t : Term} (ht : s.Resolves e t)
    {values : Nat → Option Value} {unit : Nat}
    (hown : ∀ j ∈ t.dependencies, ∀ w, values j = some w →
      ∃ n, HasValue resolver root n root (s.constName j) w)
    (himports : ∀ m x, (some m, x) ∈ (t.toConstExpr s.constName).refs → needed m x) :
    ∀ {v : Value}, (t.eval s.snapshot values unit).1 = some v →
      ∃ n, Evaluates resolver root n root (t.toConstExpr s.constName) v := by
  induction ht with
  | literal =>
    intro v hv
    cases hv
    exact ⟨0, .literal⟩
  | own _ =>
    intro v hv
    obtain ⟨n, hn⟩ := hown _ List.mem_cons_self v hv
    have hf : Follows resolver root root none root := ⟨rfl, rfl, .inl rfl⟩
    exact ⟨n, hf.evaluates hn⟩
  | imported htarget =>
    intro v hv
    have hnames := Scope.constTarget_eq_imported.1 htarget
    have hn := himports _ _ List.mem_cons_self
    rw [Term.toConstExpr]
    obtain ⟨r, -, hx⟩ := Snapshot.const?_eq_some.1 hnames.exported
    rw [Interface.name_of_const? hx] at hn ⊢
    exact h.evaluates_imported hn (hname ▸ hnames.outward) hnames.exported
      (Term.eval_imported_eq_some.1 hv)
  | negate _ ih =>
    intro w hw
    obtain ⟨v, hv, hneg⟩ := Term.eval_negate_eq_some.1 hw
    obtain ⟨n, hn⟩ := ih hown himports hv
    exact ⟨n, .negate hn hneg⟩
  | binary _ _ ihl ihr =>
    intro x hx
    obtain ⟨v, w, hv, hw, happly⟩ := Term.eval_binary_eq_some.1 hx
    obtain ⟨i, hi⟩ := ihl (fun j hj => hown j (List.mem_append_left _ hj))
      (fun m y hy => himports m y (List.mem_append_left _ hy)) hv
    obtain ⟨j, hj⟩ := ihr (fun j hj => hown j (List.mem_append_right _ hj))
      (fun m y hy => himports m y (List.mem_append_right _ hy)) hw
    exact ⟨max i j, .binary hi hj happly⟩

namespace WellFormed

variable {module : String} {sources : List Source} {snapshot : Snapshot}

/--
The constants of a debug module, by induction on their dependencies. `reads` holds of the constants
dealt with, which is closed under dependencies, and what they import is needed.
-/
theorem hasValue_of_constantAt (h : WellFormed module sources snapshot) {resolver : Resolver}
    {root : Handle} {needed : String → String → Prop}
    (hm : Mirrors snapshot resolver root needed)
    (hroot : root.interface = (Program.ofSources module sources snapshot).interface .debug)
    (reads : Nat → Prop)
    (hreads : ∀ id c t v, reads id → ConstantAt module sources snapshot id c t v →
      (∀ m x, (some m, x) ∈
        (t.toConstExpr (Scope.ofSources module sources snapshot).constName).refs → needed m x) ∧
      ∀ j ∈ t.dependencies, reads j)
    (id : Nat) :
    ∀ c t v, reads id → ConstantAt module sources snapshot id c t v →
      ∃ n, HasValue resolver root n root c.decl.name.name v := by
  have hnames := h.contents_sound.names
  have hrange := (Scope.represents_constGraph hnames h.allFound).inRange
  induction id using Graph.induction_of_acyclic hrange h.acyclic with
  | step id ih =>
    intro c t v hr hc
    obtain ⟨himports, hdeps⟩ := hreads id c t v hr hc
    have hterm := Scope.getElem?_terms.2 ⟨c, hc.declared, hc.resolves⟩
    have heval := hc.value
    rw [h.consistent id c t hc.declared hc.resolves] at heval
    have hown : ∀ j ∈ t.dependencies, ∀ w, value module sources snapshot j = some w →
        ∃ n, HasValue resolver root n root
          ((Scope.ofSources module sources snapshot).constName j) w := by
      intro j hj w hw
      obtain ⟨d, u, hd⟩ := h.exists_of_dependency hc hj hw
      rw [Scope.constName_eq hd.declared]
      exact ih j (Scope.edge_constGraph.2 ⟨t, hterm, hj⟩) d u w (hdeps j hj) hd
    have hname : root.name = module := by
      rw [Handle.name, hroot]
      exact congrArg Scope.module h.scope_eq
    obtain ⟨n, hn⟩ := evaluates_of_eval hm hname hc.resolves hown himports heval
    have hconst := h.const?_interface .debug hc
    rw [← hroot] at hconst
    exact ⟨n + 1, .unfolded hconst rfl (hc.height_le _) hn⟩

end WellFormed

end Linkage
