import Linkage.Proofs.Wire.RoundTrip

/-!
# Linkage.Proofs.Wire.Canonical

What readers take, whoever wrote it.

* `Takes r P` — the bytes that the reader `r` takes off the front of an input and the value it
  gives for them are related by `P`.
* `takes_u32`, `takes_string`, `takes_list` — the bytes taken are those that are written for the
  value.
* `unwrap_eq_ok` — a buffer is accepted exactly if it is an envelope around a body that is.
-/

namespace Linkage
namespace Wire

/-! ## Words -/

theorem natOfBytes_lt (bs : Bytes) : natOfBytes bs < Nat.pow 256 bs.length := by
  induction bs with
  | nil => exact Nat.one_pos
  | cons b bs ih =>
    have hb := b.toNat_lt
    have hpow : Nat.pow 256 (bs.length + 1) = 256 * Nat.pow 256 bs.length := Nat.mul_comm _ _
    rw [List.length_cons, hpow, natOfBytes]
    omega

/-- The other way round: the bytes of a number that was read are those it was read from. -/
theorem littleEndian_natOfBytes (bs : Bytes) : littleEndian bs.length (natOfBytes bs) = bs := by
  induction bs with
  | nil => rfl
  | cons b bs ih =>
    have hb := b.toNat_lt
    have hlow : (b.toNat + 256 * natOfBytes bs) % 256 = b.toNat := by omega
    have hhigh : (b.toNat + 256 * natOfBytes bs) / 256 = natOfBytes bs := by omega
    have hbyte : UInt8.ofNat (b.toNat + 256 * natOfBytes bs) = b := by
      rw [← UInt8.toNat_inj, UInt8.toNat_ofNat', hlow]
    rw [List.length_cons, natOfBytes, littleEndian, hbyte, hhigh, ih]

theorem u16_ofNat_natOfBytes {bs : Bytes} (h : bs.length = 2) :
    u16 (UInt16.ofNat (natOfBytes bs)) = bs := by
  have hlt : natOfBytes bs < 2 ^ 16 := by simpa [h] using natOfBytes_lt bs
  rw [u16, UInt16.toNat_ofNat_of_lt' hlt, ← h, littleEndian_natOfBytes]

theorem u64_ofNat_natOfBytes {bs : Bytes} (h : bs.length = 8) :
    u64 (UInt64.ofNat (natOfBytes bs)) = bs := by
  have hlt : natOfBytes bs < 2 ^ 64 := by simpa [h] using natOfBytes_lt bs
  rw [u64, UInt64.toNat_ofNat_of_lt' hlt, ← h, littleEndian_natOfBytes]

namespace Reader

variable {α β : Type} {r : Reader α} {P : Nat → Bytes → α → Prop}

/-- The number is the offset of the first byte that is taken. -/
def Takes (r : Reader α) (P : Nat → Bytes → α → Prop) : Prop :=
  ∀ i a j, r i = .ok (a, j) →
    ∃ bs, i.rest = bs ++ j.rest ∧ j.offset = i.offset + bs.length ∧ P i.offset bs a

/-! ## Sequencing -/

theorem Takes.mono {Q : Nat → Bytes → α → Prop} (h : Takes r P)
    (hPQ : ∀ n bs a, P n bs a → Q n bs a) : Takes r Q := by
  intro i a j ha
  obtain ⟨bs, hrest, hoffset, hP⟩ := h i a j ha
  exact ⟨bs, hrest, hoffset, hPQ _ _ _ hP⟩

theorem takes_pure {a : α} (h : ∀ n, P n [] a) : Takes (pure a) P := by
  intro i b j hb
  cases hb
  exact ⟨[], rfl, rfl, h i.offset⟩

theorem takes_fail (fault : Nat → FormatError) (P : Nat → Bytes → α → Prop) :
    Takes (fail fault) P := fun _ _ _ h => nomatch h

/-- The second reader goes on where the first one stops. -/
theorem Takes.bind {f : α → Reader β} {Q : Nat → Bytes → β → Prop} (hr : Takes r P)
    (hf : ∀ a, Takes (f a) fun m cs b => ∀ n bs, P n bs a → m = n + bs.length → Q n (bs ++ cs) b) :
    Takes (r >>= f) Q := by
  intro i b k hb
  change Reader.bind r f i = .ok (b, k) at hb
  unfold Reader.bind at hb
  split at hb
  · cases hb
  · rename_i a j ha
    obtain ⟨bs, hrest, hoffset, hP⟩ := hr i a j ha
    obtain ⟨cs, hrest', hoffset', hQ⟩ := hf a j b k hb
    refine ⟨bs ++ cs, ?_, ?_, hQ _ bs hP hoffset⟩
    · rw [hrest, hrest', List.append_assoc]
    · rw [hoffset', hoffset, List.length_append, Nat.add_assoc]

theorem Takes.map {f : α → β} {Q : Nat → Bytes → β → Prop} (hr : Takes r P)
    (hf : ∀ n bs a, P n bs a → Q n bs (f a)) : Takes (f <$> r) Q := by
  refine hr.bind fun a => takes_pure fun _ n bs hP _ => ?_
  rw [List.append_nil]
  exact hf n bs a hP

/-! ## Words and tags -/

theorem takes_take (n : Nat) : Takes (take n) fun _ bs cs => bs = cs ∧ cs.length = n := by
  intro i cs j h
  unfold take at h
  dsimp only at h
  split at h
  · rename_i hlength
    cases h
    exact ⟨i.rest.take n, (List.take_append_drop n i.rest).symm, by rw [hlength], rfl, hlength⟩
  · cases h

theorem takes_nat (width : Nat) :
    Takes (nat width) fun _ bs n => bs = littleEndian width n ∧ n < Nat.pow 256 width := by
  refine (takes_take width).bind fun cs => takes_pure ?_
  rintro _ _ bs ⟨rfl, rfl⟩ -
  rw [List.append_nil]
  exact ⟨(littleEndian_natOfBytes bs).symm, natOfBytes_lt bs⟩

theorem takes_count : Takes (nat 4) fun _ bs n => bs = count n ∧ n < countLimit := takes_nat 4

theorem takes_u32 : Takes Reader.u32 fun _ bs w => bs = Wire.u32 w := by
  refine (takes_nat 4).bind fun n => takes_pure ?_
  rintro _ _ bs ⟨rfl, hlt⟩ -
  rw [List.append_nil, Wire.u32, UInt32.toNat_ofNat_of_lt' hlt]

theorem takes_u64 : Takes Reader.u64 fun _ bs w => bs = Wire.u64 w := by
  refine (takes_nat 8).bind fun n => takes_pure ?_
  rintro _ _ bs ⟨rfl, hlt⟩ -
  rw [List.append_nil, Wire.u64, UInt64.toNat_ofNat_of_lt' hlt]

theorem takes_byte : Takes byte fun _ bs b => bs = [b] := by
  intro i b j h
  unfold byte at h
  split at h
  · rename_i hrest
    cases h
    exact ⟨[b], hrest, rfl, rfl⟩
  · cases h

theorem takes_tag (what : String) (meaning : UInt8 → Option α) :
    Takes (tag what meaning) fun _ bs a => ∃ b, bs = [b] ∧ meaning b = some a := by
  intro i a k h
  unfold tag at h
  split at h
  · cases h
  · rename_i b j hb
    split at h
    · rename_i hmeaning
      cases h
      obtain ⟨bs, hrest, hoffset, rfl⟩ := takes_byte i b _ hb
      exact ⟨[b], hrest, hoffset, b, rfl, hmeaning⟩
    · cases h

/-! ## Texts and lists -/

theorem takes_string :
    Takes string fun _ bs s => bs = str s ∧ (Text.bytes s).length < countLimit := by
  refine takes_count.bind fun n i s k h => ?_
  split at h
  · cases h
  · rename_i cs j hcs
    split at h
    · rename_i hs
      cases h
      obtain ⟨bs, hrest, hoffset, rfl, hlength⟩ := takes_take n i cs _ hcs
      refine ⟨bs, hrest, hoffset, ?_⟩
      rintro _ ds ⟨rfl, hlt⟩ -
      rw [str, Text.bytes_of_ofBytes? hs, hlength]
      exact ⟨rfl, hlt⟩
    · cases h

/-- The items with their bytes, one after the other. -/
theorem takes_times {item : Reader α} {encode : α → Bytes} {Q : α → Prop}
    (h : Takes item fun _ bs a => bs = encode a ∧ Q a) (n : Nat) :
    Takes (times item n) fun _ bs as =>
      bs = as.flatMap encode ∧ as.length = n ∧ ∀ a ∈ as, Q a := by
  induction n with
  | zero => exact takes_pure fun _ => ⟨rfl, rfl, fun _ ha => nomatch ha⟩
  | succ n ih =>
    refine h.bind fun a => ih.bind fun as => takes_pure ?_
    rintro _ _ bs ⟨rfl, rfl, has⟩ - _ cs ⟨rfl, ha⟩ -
    exact ⟨by simp, rfl, List.forall_mem_cons.2 ⟨ha, has⟩⟩

theorem takes_list {item : Reader α} {encode : α → Bytes} {Q : α → Prop}
    (h : Takes item fun _ bs a => bs = encode a ∧ Q a) :
    Takes (list item) fun _ bs as =>
      bs = Wire.list encode as ∧ as.length < countLimit ∧ ∀ a ∈ as, Q a := by
  refine takes_count.bind fun n => (takes_times h n).mono ?_
  rintro _ bs as ⟨rfl, rfl, has⟩ _ cs ⟨rfl, hlt⟩ -
  exact ⟨rfl, hlt, has⟩

theorem whole_eq_ok {input : Input} {a : α} :
    r.whole input = .ok a ↔ ∃ j, r input = .ok (a, j) ∧ j.rest = [] := by
  unfold whole
  constructor
  · intro h
    split at h
    · cases h
    · rename_i j hr
      split at h
      · rename_i hrest
        cases h
        exact ⟨j, hr, List.length_eq_zero_iff.1 hrest⟩
      · cases h
  · rintro ⟨j, hr, hrest⟩
    simp [hr, hrest]

theorem Takes.whole {bs : Bytes} {offset : Nat} {a : α} (hr : Takes r P)
    (h : r.whole ⟨bs, offset⟩ = .ok a) : P offset bs a := by
  obtain ⟨j, hok, hrest⟩ := whole_eq_ok.1 h
  obtain ⟨cs, hcs, -, hP⟩ := hr _ _ _ hok
  dsimp only at hcs hP
  rw [hrest, List.append_nil] at hcs
  rwa [hcs]

end Reader

/-! ## Envelopes -/

variable {α : Type}

theorem length_envelope (f : Format) (body : Bytes) :
    (f.envelope body).length = (f.magic ++ u16 f.version ++ body).length + 8 := by
  rw [Format.envelope, List.length_append, u64, littleEndian_length]

/-- All of an envelope but its checksum. -/
theorem take_envelope (f : Format) (body : Bytes) :
    (f.envelope body).take ((f.envelope body).length - 8) = f.magic ++ u16 f.version ++ body := by
  rw [length_envelope, Nat.add_sub_cancel]
  exact List.take_left

/-- A buffer that passes the checks of a format is an envelope. -/
theorem eq_envelope_of_unwrap {f : Format} {r : Reader α} {bs : Bytes} {a : α}
    (h : f.unwrap r bs = .ok a) : ∃ body, bs = f.envelope body := by
  unfold Format.unwrap at h
  dsimp only at h
  split at h
  · cases h
  rename_i hmagic
  split at h
  · cases h
  rename_i hlong
  split at h
  · cases h
  rename_i hsum
  split at h
  · cases h
  rename_i hversion
  rw [Classical.not_not] at hmagic hsum hversion
  let content := bs.take (bs.length - 8)
  have hstored : (bs.drop (bs.length - 8)).length = 8 := by
    rw [List.length_drop]
    omega
  have hversionBytes : ((content.drop f.magic.length).take 2).length = 2 := by
    simp only [content, List.length_take, List.length_drop]
    omega
  have hstart : content.take f.magic.length = f.magic := by
    rw [List.take_take, Nat.min_eq_left (by omega), hmagic]
  refine ⟨content.drop (f.magic.length + 2), ?_⟩
  have hcontent : f.magic ++ u16 f.version ++ content.drop (f.magic.length + 2) = content := by
    calc f.magic ++ u16 f.version ++ content.drop (f.magic.length + 2)
        = f.magic ++ content.drop f.magic.length := by
          rw [← hversion, u16_ofNat_natOfBytes hversionBytes, List.append_assoc, ← List.drop_drop,
            List.take_append_drop]
      _ = content.take f.magic.length ++ content.drop f.magic.length := by rw [hstart]
      _ = content := List.take_append_drop _ _
  rw [Format.envelope, hcontent, ← hsum, u64_ofNat_natOfBytes hstored, List.take_append_drop]

/-- A buffer is accepted exactly if it is an envelope around a body that is taken whole. -/
theorem unwrap_eq_ok {f : Format} {r : Reader α} {bs : Bytes} {a : α} :
    f.unwrap r bs = .ok a ↔
      ∃ body, bs = f.envelope body ∧ r.whole ⟨body, f.magic.length + 2⟩ = .ok a := by
  constructor
  · intro h
    obtain ⟨body, rfl⟩ := eq_envelope_of_unwrap h
    exact ⟨body, rfl, unwrap_envelope f r body ▸ h⟩
  · rintro ⟨body, rfl, h⟩
    rw [unwrap_envelope, h]

end Wire
end Linkage
