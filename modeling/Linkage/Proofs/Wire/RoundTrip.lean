import Linkage.Wire.Read

/-!
# Linkage.Proofs.Wire.RoundTrip

Readers against writers.

* `Reads r bs a` — `r` takes exactly `bs` off the front of any input and gives `a`.
* `Faults r bs fault` — on any input that begins with `bs`, `r` stops with this fault.
* `unwrap_of_reads`, `unwrap_of_faults` — an envelope hands on what the reader of its body says.

Both relations are closed under sequencing, so the reader of a record is dealt with field by field.
-/

namespace Linkage
namespace Wire

/-- The lengths from here on do not fit the 32 bits there are for them. -/
def countLimit : Nat := 0x100000000

namespace Reader

variable {α β : Type}

def Reads (r : Reader α) (bs : Bytes) (a : α) : Prop :=
  ∀ rest offset, r ⟨bs ++ rest, offset⟩ = .ok (a, ⟨rest, offset + bs.length⟩)

/-- The place of the fault is left open. -/
def Faults (r : Reader α) (bs : Bytes) (fault : Nat → FormatError) : Prop :=
  ∀ rest offset, ∃ place, r ⟨bs ++ rest, offset⟩ = .error (fault place)

/-! ## Sequencing -/

theorem bind_ok {r : Reader α} {f : α → Reader β} {i j : Input} {a : α} (h : r i = .ok (a, j)) :
    (r >>= f) i = f a j := by
  show Reader.bind r f i = _
  simp only [Reader.bind, h]

theorem bind_error {r : Reader α} {f : α → Reader β} {i : Input} {e : FormatError}
    (h : r i = .error e) : (r >>= f) i = .error e := by
  show Reader.bind r f i = _
  simp only [Reader.bind, h]

theorem reads_pure (a : α) : Reads (pure a) [] a := fun _ _ => rfl

theorem Reads.bind {r : Reader α} {f : α → Reader β} {bs cs : Bytes} {a : α} {b : β}
    (hr : Reads r bs a) (hf : Reads (f a) cs b) : Reads (r >>= f) (bs ++ cs) b := by
  intro rest offset
  rw [List.append_assoc, bind_ok (hr (cs ++ rest) offset), hf rest, List.length_append, Nat.add_assoc]

theorem Reads.map {r : Reader α} {bs : Bytes} {a : α} (f : α → β) (hr : Reads r bs a) :
    Reads (f <$> r) bs (f a) := by
  have h := hr.bind (f := fun a => pure (f a)) (reads_pure (f a))
  rwa [List.append_nil] at h

theorem Faults.bind {r : Reader α} {bs : Bytes} {fault : Nat → FormatError}
    (hr : Faults r bs fault) (f : α → Reader β) (cs : Bytes) : Faults (r >>= f) (bs ++ cs) fault := by
  intro rest offset
  obtain ⟨place, h⟩ := hr (cs ++ rest) offset
  exact ⟨place, by rw [List.append_assoc, bind_error h]⟩

theorem Faults.map {r : Reader α} {bs : Bytes} {fault : Nat → FormatError} (f : α → β)
    (hr : Faults r bs fault) : Faults (f <$> r) bs fault := by
  have h := hr.bind (fun a => pure (f a)) []
  rwa [List.append_nil] at h

theorem Reads.bind_faults {r : Reader α} {f : α → Reader β} {bs cs : Bytes} {a : α}
    {fault : Nat → FormatError} (hr : Reads r bs a) (hf : Faults (f a) cs fault) :
    Faults (r >>= f) (bs ++ cs) fault := by
  intro rest offset
  obtain ⟨place, h⟩ := hf rest (offset + bs.length)
  exact ⟨place, by rw [List.append_assoc, bind_ok (hr (cs ++ rest) offset), h]⟩

/-- What comes after bytes that are known to be read. -/
theorem Reads.rest {r : Reader α} {f : α → Reader β} {bs rest : Bytes} {offset : Nat} {a : α}
    {b : β} {j : Input} (hr : Reads r bs a) (h : (r >>= f) ⟨bs ++ rest, offset⟩ = .ok (b, j)) :
    f a ⟨rest, offset + bs.length⟩ = .ok (b, j) := by
  rwa [bind_ok (hr rest offset)] at h

theorem faults_fail (fault : Nat → FormatError) (bs : Bytes) :
    Faults (fail fault : Reader α) bs fault := fun _ offset => ⟨offset, rfl⟩

/-! ## Words and tags -/

theorem reads_take {n : Nat} {bs : Bytes} (h : bs.length = n) : Reads (take n) bs bs := by
  intro rest offset
  subst h
  simp [take]

theorem reads_nat {width n : Nat} (h : n < Nat.pow 256 width) :
    Reads (nat width) (littleEndian width n) n := by
  have hn : natOfBytes (littleEndian width n) = n := by
    rw [natOfBytes_littleEndian, Nat.mod_eq_of_lt h]
  have := (reads_take (littleEndian_length width n)).bind (f := fun bs => pure (natOfBytes bs))
    (reads_pure _)
  rwa [List.append_nil, hn] at this

theorem reads_count {n : Nat} (h : n < countLimit) : Reads (nat 4) (count n) n := reads_nat h

theorem reads_u32 (w : UInt32) : Reads Reader.u32 (Wire.u32 w) w := by
  have := (@reads_nat 4 _ w.toNat_lt).bind (f := fun n => pure (UInt32.ofNat n)) (reads_pure _)
  rwa [List.append_nil, UInt32.ofNat_toNat] at this

theorem reads_u64 (w : UInt64) : Reads Reader.u64 (Wire.u64 w) w := by
  have := (@reads_nat 8 _ w.toNat_lt).bind (f := fun n => pure (UInt64.ofNat n))
    (reads_pure _)
  rwa [List.append_nil, UInt64.ofNat_toNat] at this

theorem reads_flag (b : Bool) : Reads Reader.flag (Wire.flag b) b := by
  cases b <;> exact fun _ _ => rfl

theorem reads_tag {what : String} {meaning : UInt8 → Option α} {b : UInt8} {a : α}
    (h : meaning b = some a) : Reads (tag what meaning) [b] a := by
  intro rest offset
  have hbyte : byte ⟨[b] ++ rest, offset⟩ = .ok (b, ⟨rest, offset + 1⟩) := rfl
  simp only [tag, hbyte, h, List.length_singleton]

/-! ## Texts and lists -/

theorem reads_string {s : String} (h : (Text.bytes s).length < countLimit) :
    Reads string (str s) s := by
  refine (reads_count h).bind ?_
  intro rest offset
  simp only [reads_take rfl rest offset, Text.ofBytes?_bytes]

theorem reads_times {item : Reader α} {encode : α → Bytes} {xs : List α}
    (h : ∀ x ∈ xs, Reads item (encode x) x) :
    Reads (times item xs.length) (xs.flatMap encode) xs := by
  induction xs with
  | nil => exact reads_pure []
  | cons x xs ih =>
    refine (h x List.mem_cons_self).bind ?_
    have := (ih fun y hy => h y (List.mem_cons_of_mem x hy)).bind
      (f := fun ys => pure (x :: ys)) (reads_pure (x :: xs))
    rwa [List.append_nil] at this

theorem reads_list {item : Reader α} {encode : α → Bytes} {xs : List α}
    (hl : xs.length < countLimit) (h : ∀ x ∈ xs, Reads item (encode x) x) :
    Reads (list item) (Wire.list encode xs) xs :=
  (reads_count hl).bind (reads_times h)

/-- The items before the first faulty one are read as they are. -/
theorem faults_times {item : Reader α} {encode : α → Bytes} {xs : List α}
    {fault : Nat → FormatError} (bad : α → Prop)
    (hr : ∀ x ∈ xs, ¬ bad x → Reads item (encode x) x)
    (hf : ∀ x ∈ xs, bad x → Faults item (encode x) fault) (h : ∃ x ∈ xs, bad x) :
    Faults (times item xs.length) (xs.flatMap encode) fault := by
  induction xs with
  | nil => simp at h
  | cons x xs ih =>
    by_cases hx : bad x
    · exact (hf x List.mem_cons_self hx).bind _ _
    · refine (hr x List.mem_cons_self hx).bind_faults ?_
      have h' : ∃ y ∈ xs, bad y := by
        obtain ⟨y, hy, hb⟩ := h
        rcases List.mem_cons.1 hy with rfl | hy
        · exact absurd hb hx
        · exact ⟨y, hy, hb⟩
      have := (ih (fun y hy => hr y (List.mem_cons_of_mem x hy))
        (fun y hy => hf y (List.mem_cons_of_mem x hy)) h').bind (fun ys => pure (x :: ys)) []
      rwa [List.append_nil] at this

theorem faults_list {item : Reader α} {encode : α → Bytes} {xs : List α}
    {fault : Nat → FormatError} (hl : xs.length < countLimit) (bad : α → Prop)
    (hr : ∀ x ∈ xs, ¬ bad x → Reads item (encode x) x)
    (hf : ∀ x ∈ xs, bad x → Faults item (encode x) fault) (h : ∃ x ∈ xs, bad x) :
    Faults (list item) (Wire.list encode xs) fault :=
  (reads_count hl).bind_faults (faults_times bad hr hf h)

end Reader

/-! ## Envelopes -/

open Reader

variable {α : Type}

theorem natOfBytes_u16 (w : UInt16) : UInt16.ofNat (natOfBytes (u16 w)) = w := by
  have h : w.toNat % Nat.pow 256 2 = w.toNat := Nat.mod_eq_of_lt w.toNat_lt
  rw [u16, natOfBytes_littleEndian, h, UInt16.ofNat_toNat]

theorem natOfBytes_u64 (w : UInt64) : UInt64.ofNat (natOfBytes (u64 w)) = w := by
  have h : w.toNat % Nat.pow 256 8 = w.toNat := Nat.mod_eq_of_lt w.toNat_lt
  rw [u64, natOfBytes_littleEndian, h, UInt64.ofNat_toNat]

/-- What a reader gives that has to take all of its input. -/
def Reader.whole (r : Reader α) (input : Input) : Except FormatError α :=
  match r input with
  | .error e => .error e
  | .ok (a, i) =>
    match i.rest.length with
    | 0 => .ok a
    | n => .error (.trailingBytes n)

/-- The checks of an envelope pass on what was put into one; only the body can fail. -/
theorem unwrap_envelope (f : Format) (r : Reader α) (body : Bytes) :
    f.unwrap r (f.envelope body) = r.whole ⟨body, f.magic.length + 2⟩ := by
  have hv : (u16 f.version).length = 2 := littleEndian_length 2 _
  have hsum (w : UInt64) : (u64 w).length = 8 := littleEndian_length 8 _
  have hlen : (f.envelope body).length = f.magic.length + 2 + body.length + 8 := by
    simp only [Format.envelope, List.length_append, hv, hsum]
  have hcontent : (f.envelope body).take ((f.envelope body).length - 8) =
      f.magic ++ (u16 f.version ++ body) := by
    have : (f.envelope body).length - 8 = (f.magic ++ u16 f.version ++ body).length := by
      simp only [hlen, List.length_append, hv, Nat.add_sub_cancel]
    rw [this, Format.envelope, List.take_left, List.append_assoc]
  have hstored : (f.envelope body).drop ((f.envelope body).length - 8) =
      u64 (xxh64 (f.magic ++ (u16 f.version ++ body))) := by
    have : (f.envelope body).length - 8 = (f.magic ++ u16 f.version ++ body).length := by
      simp only [hlen, List.length_append, hv, Nat.add_sub_cancel]
    rw [this, Format.envelope, List.drop_left, List.append_assoc]
  have hmagic : (f.envelope body).take f.magic.length = f.magic := by
    simp only [Format.envelope, List.append_assoc, List.take_left]
  have hversion : ((f.magic ++ (u16 f.version ++ body)).drop f.magic.length).take 2 =
      u16 f.version := by
    rw [List.drop_left, List.take_left' hv]
  have hbody : (f.magic ++ (u16 f.version ++ body)).drop (f.magic.length + 2) = body := by
    rw [← List.append_assoc]
    exact List.drop_left' (by rw [List.length_append, hv])
  have hlong : ¬ (f.envelope body).length < f.magic.length + 10 := by
    rw [hlen]
    omega
  refine (if_neg (not_not_intro hmagic)).trans ((if_neg hlong).trans ?_)
  refine (if_neg (not_not_intro ?_)).trans ((if_neg (not_not_intro ?_)).trans ?_)
  · rw [hstored, hcontent, natOfBytes_u64]
  · rw [hcontent, hversion, natOfBytes_u16]
  · exact congrArg (fun bs => r.whole ⟨bs, f.magic.length + 2⟩) (by rw [hcontent, hbody])

theorem unwrap_of_reads {f : Format} {r : Reader α} {body : Bytes} {a : α} (h : Reads r body a) :
    f.unwrap r (f.envelope body) = .ok a := by
  have := h [] (f.magic.length + 2)
  rw [List.append_nil] at this
  rw [unwrap_envelope, Reader.whole, this]
  rfl

theorem unwrap_of_faults {f : Format} {r : Reader α} {body : Bytes} {fault : Nat → FormatError}
    (h : Faults r body fault) : ∃ place, f.unwrap r (f.envelope body) = .error (fault place) := by
  obtain ⟨place, h⟩ := h [] (f.magic.length + 2)
  rw [List.append_nil] at h
  exact ⟨place, by rw [unwrap_envelope, Reader.whole, h]⟩

end Wire
end Linkage
