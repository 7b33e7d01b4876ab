import Mathlib.Data.List.TakeWhile

/-!
# Linkage.Proofs.Qualified

Names that are put together with a point.

* `takeWhile_of_qualified`, `lastSegment_of_qualified` — what stands before the first point and
  what stands after the last one.
* `qualified_inj` — a qualifier without points can be told from the name.
-/

namespace Linkage

theorem toList_qualified (qualifier name : String) :
    (qualifier ++ "." ++ name).toList = qualifier.toList ++ '.' :: name.toList := by
  simp [String.toList_append]

/-! ## Before the first point -/

theorem takeWhile_of_bare {cs : List Char} (h : '.' ∉ cs) : cs.takeWhile (· ≠ '.') = cs := by
  rw [List.takeWhile_eq_self_iff]
  intro c hc
  rw [decide_eq_true_eq]
  rintro rfl
  exact h hc

theorem takeWhile_of_qualified {cs : List Char} (h : '.' ∉ cs) (ds : List Char) :
    (cs ++ '.' :: ds).takeWhile (· ≠ '.') = cs := by
  rw [List.takeWhile_append_of_pos (List.takeWhile_eq_self_iff.1 (takeWhile_of_bare h))]
  simp

theorem qualified_inj {m m' n n' : String} (hm : '.' ∉ m.toList) (hm' : '.' ∉ m'.toList)
    (h : m ++ "." ++ n = m' ++ "." ++ n') : m = m' ∧ n = n' := by
  have hchars := congrArg String.toList h
  rw [toList_qualified, toList_qualified] at hchars
  have hbefore := congrArg (List.takeWhile (· ≠ '.')) hchars
  rw [takeWhile_of_qualified hm, takeWhile_of_qualified hm'] at hbefore
  rw [hbefore, List.append_cancel_left_eq, List.cons.injEq] at hchars
  exact ⟨String.toList_injective hbefore, String.toList_injective hchars.2⟩

/-! ## After the last point -/

/-- What follows the last point of a name. -/
def lastSegment (name : String) : String :=
  String.ofList (name.toList.reverse.takeWhile (· ≠ '.')).reverse

theorem lastSegment_of_bare {name : String} (h : '.' ∉ name.toList) : lastSegment name = name := by
  have hreverse : '.' ∉ name.toList.reverse := mt List.mem_reverse.1 h
  rw [lastSegment, takeWhile_of_bare hreverse, List.reverse_reverse, String.ofList_toList]

theorem lastSegment_of_qualified (qualifier : String) {name : String} (h : '.' ∉ name.toList) :
    lastSegment (qualifier ++ "." ++ name) = name := by
  have hreverse : '.' ∉ name.toList.reverse := mt List.mem_reverse.1 h
  rw [lastSegment, toList_qualified, List.reverse_append, List.reverse_cons, List.append_assoc,
    List.singleton_append, takeWhile_of_qualified hreverse, List.reverse_reverse,
    String.ofList_toList]

end Linkage
