import Linkage.Proofs.Wire.Canonical

/-!
# Linkage.Proofs.Wire.Delimited

Readers that know from the bytes they have read where to stop.

* `Spans r offset bs a` — at this offset the reader `r` takes `bs` for `a`, whatever comes after,
  and of less than `bs` it says that something is missing, and nothing else.
* `Delimited r` — whenever `r` succeeds, the bytes that it has taken are such bytes.
* `Delimited.bind` — this is closed under sequencing, so a record is delimited if its fields are.
* `Delimited.whole` — a delimited reader of a whole input accepts no shorter and no longer one.
* `unwrap_prefix`, `unwrap_append` — the same of buffers, each with the checksum that it needs.
-/

namespace Linkage
namespace Wire
namespace Reader

variable {α β : Type}

structure Spans (r : Reader α) (offset : Nat) (bs : Bytes) (a : α) : Prop where
  takes : ∀ rest, r ⟨bs ++ rest, offset⟩ = .ok (a, ⟨rest, offset + bs.length⟩)
  lacks : ∀ p, p <+: bs → p ≠ bs → ∃ place, r ⟨p, offset⟩ = .error (.truncated place)

def Delimited (r : Reader α) : Prop :=
  ∀ i a j, r i = .ok (a, j) →
    ∃ bs, i.rest = bs ++ j.rest ∧ j.offset = i.offset + bs.length ∧ Spans r i.offset bs a

/-! ## Sequencing -/

theorem spans_pure (a : α) (offset : Nat) : Spans (pure a) offset [] a where
  takes := fun _ => rfl
  lacks := fun _ hp hne => absurd (List.prefix_nil.1 hp) hne

/-- What is cut off is missing from the first part, or the first part is there and it is missing
from the second. -/
theorem Spans.bind {r : Reader α} {f : α → Reader β} {offset : Nat} {bs cs : Bytes} {a : α} {b : β}
    (hr : Spans r offset bs a) (hf : Spans (f a) (offset + bs.length) cs b) :
    Spans (r >>= f) offset (bs ++ cs) b where
  takes := by
    intro rest
    rw [List.append_assoc, bind_ok (hr.takes (cs ++ rest)), hf.takes rest, List.length_append,
      Nat.add_assoc]
  lacks := by
    intro p hp hne
    by_cases hfirst : bs <+: p
    · obtain ⟨q, rfl⟩ := hfirst
      have hq : q <+: cs := (List.prefix_append_right_inj bs).1 hp
      obtain ⟨place, h⟩ := hf.lacks q hq fun heq => hne (heq ▸ rfl)
      exact ⟨place, by rw [bind_ok (hr.takes q), h]⟩
    · have hshort : p <+: bs :=
        (List.prefix_or_prefix_of_prefix hp (List.prefix_append bs cs)).resolve_right hfirst
      obtain ⟨place, h⟩ := hr.lacks p hshort fun heq => hfirst (heq ▸ List.prefix_rfl)
      exact ⟨place, bind_error h⟩

theorem delimited_pure (a : α) : Delimited (pure a) := by
  intro i b j h
  cases h
  exact ⟨[], rfl, rfl, spans_pure a i.offset⟩

theorem delimited_fail (fault : Nat → FormatError) : Delimited (fail fault : Reader α) :=
  fun _ _ _ h => nomatch h

theorem Delimited.bind {r : Reader α} {f : α → Reader β} (hr : Delimited r)
    (hf : ∀ a, Delimited (f a)) : Delimited (r >>= f) := by
  intro i b k hb
  change Reader.bind r f i = .ok (b, k) at hb
  unfold Reader.bind at hb
  split at hb
  · cases hb
  · rename_i a j ha
    obtain ⟨bs, hrest, hoffset, hspans⟩ := hr i a j ha
    obtain ⟨cs, hrest', hoffset', hspans'⟩ := hf a j b k hb
    refine ⟨bs ++ cs, ?_, ?_, hspans.bind (hoffset ▸ hspans')⟩
    · rw [hrest, hrest', List.append_assoc]
    · rw [hoffset', hoffset, List.length_append, Nat.add_assoc]

theorem Delimited.map {r : Reader α} (f : α → β) (hr : Delimited r) : Delimited (f <$> r) :=
  hr.bind fun a => delimited_pure (f a)

/-! ## Words and tags -/

theorem spans_take (bs : Bytes) (offset : Nat) : Spans (take bs.length) offset bs bs where
  takes := fun rest => reads_take rfl rest offset
  lacks := by
    intro p hp hne
    have hshort : ¬ (p.take bs.length).length = bs.length := by
      rw [List.take_of_length_le hp.length_le]
      exact fun hlength => hne (hp.eq_of_length hlength)
    exact ⟨offset, if_neg hshort⟩

theorem delimited_take (n : Nat) : Delimited (take n) := by
  intro i bs j h
  obtain ⟨bs', hrest, hoffset, rfl, rfl⟩ := takes_take n i bs j h
  exact ⟨_, hrest, hoffset, spans_take _ _⟩

theorem delimited_nat (width : Nat) : Delimited (nat width) :=
  (delimited_take width).bind fun _ => delimited_pure _

theorem delimited_u64 : Delimited Reader.u64 :=
  (delimited_nat 8).bind fun _ => delimited_pure _

/-- A reader of one byte that there is no way to cut. -/
theorem delimited_single {r : Reader α}
    (hempty : ∀ offset, r ⟨[], offset⟩ = .error (.truncated offset))
    (hcons : ∀ b a rest offset j, r ⟨b :: rest, offset⟩ = .ok (a, j) →
      j = ⟨rest, offset + 1⟩ ∧ ∀ rest', r ⟨b :: rest', offset⟩ = .ok (a, ⟨rest', offset + 1⟩)) :
    Delimited r := by
  rintro ⟨rest, offset⟩ a j h
  cases rest with
  | nil =>
    rw [hempty] at h
    cases h
  | cons b rest =>
    obtain ⟨rfl, htakes⟩ := hcons b a rest offset j h
    refine ⟨[b], rfl, rfl, htakes, fun p hp hne => ⟨offset, ?_⟩⟩
    have hnil : p = [] := by
      rcases List.prefix_cons_iff.1 hp with rfl | ⟨q, rfl, hq⟩
      · rfl
      · exact absurd (congrArg (b :: ·) (List.prefix_nil.1 hq)) hne
    rw [hnil, hempty]

theorem delimited_flag : Delimited Reader.flag := by
  refine delimited_single (fun _ => rfl) fun b a rest offset j h => ?_
  cases h
  exact ⟨rfl, fun _ => rfl⟩

theorem delimited_tag (what : String) (meaning : UInt8 → Option α) :
    Delimited (tag what meaning) := by
  refine delimited_single (fun _ => rfl) fun b a rest offset j h => ?_
  have hbyte (rest : Bytes) : byte ⟨b :: rest, offset⟩ = .ok (b, ⟨rest, offset + 1⟩) := rfl
  simp only [tag, hbyte] at h ⊢
  split at h
  · cases h
    exact ⟨rfl, fun _ => rfl⟩
  · cases h

/-! ## Texts and lists -/

/-- A text that is cut off is missing bytes before anyone looks at what they say. -/
theorem delimited_string : Delimited string := by
  refine (delimited_nat 4).bind fun n i s k h => ?_
  split at h
  · cases h
  · rename_i bs j hbs
    split at h
    · rename_i hs
      cases h
      obtain ⟨cs, hrest, hoffset, hspans⟩ := delimited_take n i bs _ hbs
      refine ⟨cs, hrest, hoffset, ?_, ?_⟩
      · intro rest
        simp only [hspans.takes rest, hs]
      · intro p hp hne
        obtain ⟨place, hlacks⟩ := hspans.lacks p hp hne
        exact ⟨place, by simp only [hlacks]⟩
    · cases h

theorem delimited_times {item : Reader α} (h : Delimited item) (n : Nat) :
    Delimited (times item n) := by
  induction n with
  | zero => exact delimited_pure []
  | succ n ih => exact h.bind fun a => ih.bind fun as => delimited_pure (a :: as)

theorem delimited_list {item : Reader α} (h : Delimited item) : Delimited (list item) :=
  (delimited_nat 4).bind (delimited_times h)

/-! ## Whole inputs -/

/-- An input that is taken whole is the only one of its prefixes and extensions that is. -/
theorem Delimited.whole {r : Reader α} (hr : Delimited r) {bs : Bytes} {offset : Nat} {a : α}
    (h : r.whole ⟨bs, offset⟩ = .ok a) :
    (∀ p, p <+: bs → p ≠ bs → ∃ place, r.whole ⟨p, offset⟩ = .error (.truncated place)) ∧
      ∀ more, more ≠ [] → r.whole ⟨bs ++ more, offset⟩ = .error (.trailingBytes more.length) := by
  obtain ⟨j, hok, hend⟩ := whole_eq_ok.1 h
  obtain ⟨cs, hrest, -, hspans⟩ := hr _ _ _ hok
  dsimp only at hrest hspans
  rw [hend, List.append_nil] at hrest
  subst hrest
  constructor
  · intro p hp hne
    obtain ⟨place, hlacks⟩ := hspans.lacks p hp hne
    exact ⟨place, by rw [Reader.whole, hlacks]⟩
  · intro more hmore
    rw [Reader.whole, hspans.takes more]
    cases more with
    | nil => exact absurd rfl hmore
    | cons b more => rfl

end Reader

/-! ## Envelopes -/

variable {α : Type} {f : Format} {r : Reader α} {bs : Bytes} {a : α}

/-- A content with its own checksum after it. -/
def withChecksum (content : Bytes) : Bytes := content ++ u64 (xxh64 content)

/-- A buffer that is accepted, cut off behind the version at the earliest. -/
theorem unwrap_prefix (hr : r.Delimited) (h : f.unwrap r bs = .ok a) {p : Bytes}
    (hp : p <+: bs.take (bs.length - 8)) (hne : p ≠ bs.take (bs.length - 8))
    (hlength : f.magic.length + 2 ≤ p.length) :
    ∃ place, f.unwrap r (withChecksum p) = .error (.truncated place) := by
  obtain ⟨body, rfl, hwhole⟩ := unwrap_eq_ok.1 h
  rw [take_envelope] at hp hne
  have hhead : f.magic ++ u16 f.version <+: p := by
    refine List.prefix_of_prefix_length_le (List.prefix_append _ body) hp ?_
    rwa [List.length_append, u16, littleEndian_length]
  obtain ⟨q, rfl⟩ := hhead
  have hq : q <+: body := (List.prefix_append_right_inj _).1 hp
  obtain ⟨place, hlacks⟩ := (hr.whole hwhole).1 q hq fun heq => hne (heq ▸ rfl)
  exact ⟨place, (unwrap_envelope f r q).trans hlacks⟩

/-- A buffer that is accepted, with more before its checksum. -/
theorem unwrap_append (hr : r.Delimited) (h : f.unwrap r bs = .ok a) {more : Bytes}
    (hmore : more ≠ []) :
    f.unwrap r (withChecksum (bs.take (bs.length - 8) ++ more)) =
      .error (.trailingBytes more.length) := by
  obtain ⟨body, rfl, hwhole⟩ := unwrap_eq_ok.1 h
  have henvelope : withChecksum (f.magic ++ u16 f.version ++ body ++ more) =
      f.envelope (body ++ more) := by
    rw [List.append_assoc]
    rfl
  rw [take_envelope, henvelope, unwrap_envelope]
  exact (hr.whole hwhole).2 more hmore

end Wire
end Linkage
