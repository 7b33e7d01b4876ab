import Linkage.Proofs.Interface.Canonical
import Linkage.Proofs.Wire.Delimited

/-!
# Linkage.Proofs.Interface.PrefixFree

`prefix_free`: no image is the beginning of another one, even if each gets the checksum it needs.

The readers of all parts of an image are delimited, so what is cut off is always found to be
missing, and never read as something shorter or refused for another reason.
-/

namespace Linkage

open Wire
open Wire.Reader

theorem Kind.delimited_reader : Kind.reader.Delimited := delimited_tag _ _

theorem TypeRef.delimited_reader : TypeRef.reader.Delimited := by
  refine (delimited_tag _ _).bind fun form => ?_
  cases form with
  | builtin => exact (delimited_tag _ _).bind fun kind => delimited_pure _
  | own => exact delimited_string.bind fun name => delimited_pure _
  | imported =>
    exact delimited_string.bind fun module => delimited_string.bind fun name => delimited_pure _

theorem Value.delimited_reader (kind : Kind) : (Value.reader kind).Delimited := by
  cases kind with
  | int => exact delimited_u64.bind fun n => delimited_pure _
  | float => exact delimited_u64.bind fun bits => delimited_pure _
  | bool => exact delimited_flag.bind fun b => delimited_pure _
  | string => exact delimited_string.bind fun s => delimited_pure _

/-- The limit on levels depends on the levels above only, so it is not met sooner by a cut. -/
theorem ConstExpr.delimited_reader (levels : Nat) : (ConstExpr.reader levels).Delimited := by
  induction levels with
  | zero => exact delimited_fail _
  | succ levels ih =>
    refine (delimited_tag _ _).bind fun form => ?_
    cases form with
    | literal =>
      exact Kind.delimited_reader.bind fun kind =>
        (Value.delimited_reader kind).bind fun v => delimited_pure _
    | own => exact delimited_string.bind fun name => delimited_pure _
    | imported =>
      exact delimited_string.bind fun module => delimited_string.bind fun name => delimited_pure _
    | negate => exact ih.bind fun e => delimited_pure _
    | binary =>
      exact (delimited_tag _ _).bind fun op => ih.bind fun l => ih.bind fun r => delimited_pure _

theorem Field.delimited_reader : Field.reader.Delimited :=
  delimited_string.bind fun _ => TypeRef.delimited_reader.bind fun _ => delimited_pure _

theorem TypeDef.delimited_reader (module : String) : (TypeDef.reader module).Delimited := by
  refine delimited_string.bind fun name => (delimited_tag _ _).bind fun modifiers =>
    delimited_flag.bind fun based => ?_
  have hfields (base : Option TypeRef) : Delimited (do
      let fields ← Reader.list Field.reader
      return TypeDef.make module name modifiers base fields) :=
    (delimited_list Field.delimited_reader).bind fun fields => delimited_pure _
  cases based with
  | true => exact (TypeRef.delimited_reader.map some).bind hfields
  | false => exact (delimited_pure none).bind hfields

theorem ConstDef.delimited_reader : ConstDef.reader.Delimited := by
  refine delimited_string.bind fun name => Kind.delimited_reader.bind fun kind =>
    (delimited_tag _ _).bind fun isExpr => ?_
  have hinit (init : Init) : Delimited (pure (⟨name, kind, init⟩ : ConstDef)) := delimited_pure _
  cases isExpr with
  | true => exact ((ConstExpr.delimited_reader maxLevels).map Init.expr).bind hinit
  | false => exact ((Value.delimited_reader kind).map Init.value).bind hinit

namespace Interface

theorem delimited_reader : Interface.reader.Delimited :=
  (delimited_tag _ _).bind fun _ => delimited_string.bind fun name =>
    (delimited_list delimited_string).bind fun _ =>
      (delimited_list (TypeDef.delimited_reader name)).bind fun _ =>
        (delimited_list ConstDef.delimited_reader).bind fun _ => delimited_pure _

/--
If the image of an interface can be read back, then every shorter content that still has magic and
version is found to be cut off, and every longer one to have as many bytes too many, each under its
own checksum.
-/
theorem prefix_free {i : Interface} (h : decode i.encode = .ok i) :
    (∀ p, p <+: summed i.encode → p ≠ summed i.encode → 6 ≤ p.length →
      ∃ place, decode (withChecksum p) = .error (.truncated place)) ∧
    ∀ more, 0 < more.length →
      decode (withChecksum (summed i.encode ++ more)) = .error (.trailingBytes more.length) :=
  ⟨fun _ hp hne hlength => unwrap_prefix delimited_reader h hp hne hlength,
    fun _ hmore => unwrap_append delimited_reader h (List.length_pos_iff.1 hmore)⟩

/-- Every cut through a type, a reference, two minuses and two texts, and two bytes too many. -/
theorem prefix_free_underMinuses :
    let content := summed (underMinuses 2).encode
    decode (underMinuses 2).encode = .ok (underMinuses 2) ∧
      (∀ n, 6 ≤ n → n < content.length →
        ∃ place, decode (withChecksum (content.take n)) = .error (.truncated place)) ∧
      decode (withChecksum (content ++ [0, 7])) = .error (.trailingBytes 2) := by
  intro content
  have hfits : (underMinuses 2).Fits := by decide +kernel
  have hdecode : decode (underMinuses 2).encode = .ok (underMinuses 2) :=
    unwrap_of_reads (reads hfits (proper_underMinuses 2) ((shallow_underMinuses 2).2 (by decide)))
  refine ⟨hdecode, fun n hn hlt => ?_, (prefix_free hdecode).2 [0, 7] (by decide)⟩
  have hlength : (content.take n).length = n := by
    rw [List.length_take, Nat.min_eq_left (Nat.le_of_lt hlt)]
  refine (prefix_free hdecode).1 _ (List.take_prefix n content) ?_ (by rwa [hlength])
  intro heq
  rw [heq] at hlength
  exact Nat.ne_of_gt hlt hlength

end Interface

end Linkage
