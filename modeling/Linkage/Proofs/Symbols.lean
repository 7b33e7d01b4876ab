import Linkage.Proofs.Interface.RoundTrip
import Linkage.Proofs.Wire.Canonical
import Linkage.Symbols

/-!
# Linkage.Proofs.Symbols

Reading back debug symbols.

* `Symbols.Fits` — every text and every list is short enough for the 32 bits of its length.
* `Symbols.decode_encode` — symbols that fit read back as they are.
* `Symbols.decode_eq_ok_iff` — and nothing else is read: every buffer that is accepted is the one
  that is written for what it stands for.
-/

namespace Linkage
namespace Symbols

open Wire
open Wire.Reader

structure Fits (s : Symbols) : Prop where
  module : Text.Fits s.module
  unitCount : s.units.length < countLimit
  units : ∀ u ∈ s.units, Text.Fits u
  entryCount : s.entries.length < countLimit
  entries : ∀ e ∈ s.entries, Text.Fits e.name

instance (s : Symbols) : Decidable s.Fits :=
  decidable_of_iff (Text.Fits s.module ∧ s.units.length < countLimit ∧
      (∀ u ∈ s.units, Text.Fits u) ∧ s.entries.length < countLimit ∧
      ∀ e ∈ s.entries, Text.Fits e.name)
    ⟨fun ⟨a, b, c, d, e⟩ => ⟨a, b, c, d, e⟩,
      fun h => ⟨h.module, h.unitCount, h.units, h.entryCount, h.entries⟩⟩

theorem EntryKind.ofTag?_tag (k : EntryKind) : EntryKind.ofTag? k.tag = some k := by
  cases k <;> rfl

theorem Entry.reads {e : Entry} (h : Text.Fits e.name) : Reads Entry.reader e.encode e := by
  have hall : Reads Entry.reader ([e.kind.tag] ++ (str e.name ++ (u32 e.unit ++
      (u32 e.span.line ++ (u32 e.span.col ++ (u32 e.span.len ++ [])))))) e :=
    (reads_tag e.kind.ofTag?_tag).bind ((reads_string h).bind ((reads_u32 e.unit).bind
      ((reads_u32 e.span.line).bind ((reads_u32 e.span.col).bind
        ((reads_u32 e.span.len).bind (reads_pure e))))))
  simpa only [Entry.encode, List.append_assoc, List.append_nil, List.singleton_append] using hall

theorem reads_body {s : Symbols} (h : s.Fits) : Reads Symbols.reader s.body s := by
  have hentries : Reads Entry.reader.list (list Entry.encode s.entries) s.entries :=
    reads_list h.entryCount fun e he => Entry.reads (h.entries e he)
  have hunits : Reads Reader.string.list (list str s.units) s.units :=
    reads_list h.unitCount fun u hu => reads_string (h.units u hu)
  have hall : Reads Symbols.reader
      (str s.module ++ (list str s.units ++ list Entry.encode s.entries)) s :=
    (reads_string h.module).bind (hunits.bind (hentries.map (Symbols.mk s.module s.units)))
  simpa only [body, List.append_assoc] using hall

theorem decode_encode {s : Symbols} (h : s.Fits) : decode s.encode = .ok s :=
  unwrap_of_reads (reads_body h)

/-! ## Canonical buffers -/

theorem EntryKind.tag_of_ofTag? {b : UInt8} {k : EntryKind} (h : EntryKind.ofTag? b = some k) :
    k.tag = b := by
  unfold EntryKind.ofTag? at h
  split at h <;> cases h <;> rfl

theorem Entry.takes :
    Takes Entry.reader fun _ bs e => bs = e.encode ∧ Text.Fits e.name := by
  refine (takes_tag _ _).bind fun kind => takes_string.bind fun name => takes_u32.bind fun unit =>
    takes_u32.bind fun line => takes_u32.bind fun col => takes_u32.bind fun len => takes_pure ?_
  rintro _ _ _ rfl - _ _ rfl - _ _ rfl - _ _ rfl - _ _ ⟨rfl, hname⟩ - _ _ ⟨b, rfl, hkind⟩ -
  refine ⟨?_, hname⟩
  simp [Entry.encode, EntryKind.tag_of_ofTag? hkind]

theorem takes_reader : Takes Symbols.reader fun _ bs s => bs = s.body ∧ s.Fits := by
  have hunits : Takes Reader.string.list fun _ bs us =>
      bs = list str us ∧ us.length < countLimit ∧ ∀ u ∈ us, Text.Fits u :=
    takes_list takes_string
  refine takes_string.bind fun module => hunits.bind fun units =>
    (takes_list Entry.takes).bind fun entries => takes_pure ?_
  rintro _ _ _ ⟨rfl, hentryCount, hentries⟩ - _ _ ⟨rfl, hunitCount, hunits⟩ - _ _ ⟨rfl, hmodule⟩ -
  refine ⟨?_, hmodule, hunitCount, hunits, hentryCount, hentries⟩
  simp [body]

/--
Debug symbols and the buffers that are read as debug symbols correspond one to one: a buffer is
accepted exactly if it is what is written for the symbols it is read as.
-/
theorem decode_eq_ok_iff (bs : Bytes) (s : Symbols) :
    decode bs = .ok s ↔ s.Fits ∧ bs = s.encode := by
  constructor
  · intro h
    obtain ⟨content, rfl, hwhole⟩ := unwrap_eq_ok.1 h
    obtain ⟨rfl, hfits⟩ := takes_reader.whole hwhole
    exact ⟨hfits, rfl⟩
  · rintro ⟨hfits, rfl⟩
    exact decode_encode hfits

end Symbols
end Linkage
