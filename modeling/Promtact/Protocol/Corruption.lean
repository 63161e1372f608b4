import Promtact.Protocol.Frame

/-!
# Corrupted frames

What reading makes of a frame with one bit changed. The magic and the version are compared, and
the checksum covers the payload and, being compared with it, itself. Two fields of the header
are left:

* the kind is in no check: a changed kind is read as that of another frame;
* the length is checked against the payload it cuts out, so a bit that is cleared in it is found
  out only if the shorter payload has another checksum.

Both happen (`changed_kind_accepted`), and every other change is refused: `flipped_bit_refused`
says for each bit which of the two it is.
-/

namespace Promtact.Protocol

open Bytes (slice)

/-- The bytes with one bit changed. -/
def flipBit (bs : List UInt8) (i : Nat) (bit : Fin 8) : List UInt8 :=
  bs.modify i (· ^^^ (1 <<< UInt8.ofNat bit.val))

/-- The length that a header declares. -/
def declaredLength (frame : List UInt8) : Nat := Bytes.get (slice frame 8 12)

/-! ## What a frame that is read looks like -/

theorem readFull_eq_ok {n : Nat} {r data rest : List UInt8} (h : readFull n r = (.ok data, rest)) :
    n ≤ r.length ∧ data = r.take n ∧ rest = r.drop n := by
  unfold readFull at h
  split at h
  · cases h
    exact ⟨‹_›, rfl, rfl⟩
  · cases h

theorem slice_take {bs : List UInt8} {n first last : Nat} (hl : last ≤ n) :
    slice (bs.take n) first last = slice bs first last := by
  unfold slice
  rw [List.drop_take, List.take_take]
  congr 1
  omega

/-- The checks that a frame passes when it is read. -/
structure Accepted (bs : List UInt8) : Prop where
  magic : slice bs 0 4 = magic
  version : Bytes.get (slice bs 4 6) = version
  limit : declaredLength bs ≤ maxFrameSize
  length : headerSize + declaredLength bs ≤ bs.length
  checksum : Bytes.crc32c ((bs.drop headerSize).take (declaredLength bs)) =
    Bytes.get (slice bs 12 16)

/-- Reading succeeds exactly for the bytes that pass the checks. -/
theorem readFrame_ok_iff {bs : List UInt8} :
    (∃ frame rest, readFrame bs = (.ok frame, rest)) ↔ Accepted bs := by
  constructor
  · rintro ⟨frame, rest, h⟩
    unfold readFrame at h
    split at h
    · cases h
    · rename_i header r hheader
      obtain ⟨hsize, rfl, rfl⟩ := readFull_eq_ok hheader
      simp (disch := decide) only [slice_take] at h
      split at h
      · cases h
      · rename_i hmagic
        split at h
        · cases h
        · rename_i hversion
          split at h
          · cases h
          · rename_i hlimit
            split at h
            · cases h
            · rename_i data r hpayload
              obtain ⟨hlength, rfl, rfl⟩ := readFull_eq_ok hpayload
              rw [List.length_drop] at hlength
              split at h
              · cases h
              · rename_i hchecksum
                exact ⟨not_not.mp hmagic, not_not.mp hversion, Nat.le_of_not_lt hlimit,
                  by unfold declaredLength; omega, not_not.mp hchecksum⟩
  · intro h
    have hsize : headerSize ≤ bs.length := Nat.le_trans (Nat.le_add_right _ _) h.length
    have hlimit : ¬ Bytes.get (slice bs 8 12) > maxFrameSize := Nat.not_lt.mpr h.limit
    have hrest : Bytes.get (slice bs 8 12) ≤ (bs.drop headerSize).length := by
      rw [List.length_drop]
      exact Nat.le_sub_of_add_le' h.length
    unfold readFrame
    rw [readFull, if_pos hsize]
    simp (disch := decide) only [slice_take]
    rw [if_neg (not_not.mpr h.magic), if_neg (not_not.mpr h.version), if_neg hlimit, readFull,
      if_pos hrest]
    exact ⟨_, _, if_neg (not_not.mpr h.checksum)⟩

/-! ## One changed byte -/

theorem set_ne {bs : List UInt8} {i : Nat} {b b' : UInt8} (hb : bs[i]? = some b) (hne : b' ≠ b) :
    bs.set i b' ≠ bs := by
  intro heq
  obtain ⟨hi, rfl⟩ := List.getElem?_eq_some_iff.mp hb
  have hset : (bs.set i b')[i]? = some b' := List.getElem?_set_self hi
  rw [heq, hb] at hset
  exact hne (Option.some.inj hset).symm

section Changed

variable {kind : Kind} {payload : List UInt8} {i : Nat} {b b' : UInt8}

/-- A slice of a frame, from the header. -/
theorem slice_encodeFrame {first last : Nat} (hl : last ≤ headerSize) :
    slice (encodeFrame kind payload) first last = slice (header kind payload) first last :=
  Bytes.slice_left (length_header ▸ hl)

/-- The payload behind a changed header. -/
theorem drop_set_header (hi : i < headerSize) :
    ((encodeFrame kind payload).set i b').drop headerSize = payload := by
  rw [List.drop_set, if_pos hi]
  exact List.drop_left' length_header

theorem drop_set_payload (hi : headerSize ≤ i) :
    ((encodeFrame kind payload).set i b').drop headerSize = payload.set (i - headerSize) b' := by
  rw [List.drop_set, if_neg (Nat.not_lt.mpr hi)]
  exact congrArg (List.set · _ b') (List.drop_left' length_header)

/-- A field with a changed byte does not have its value any more. -/
theorem get_slice_set_ne {bs : List UInt8} (first last : Nat) (hb : bs[i]? = some b) (hne : b' ≠ b)
    (hf : first ≤ i) (hl : i < last) :
    Bytes.get (slice (bs.set i b') first last) ≠ Bytes.get (slice bs first last) := by
  rw [Bytes.slice_set, if_neg (Nat.not_lt.mpr hf)]
  intro heq
  refine set_ne ?_ hne (Bytes.get_injective List.length_set heq)
  unfold slice
  rw [List.getElem?_take, if_pos (by omega), List.getElem?_drop, Nat.add_sub_cancel' hf]
  exact hb

/-- A field does not see a change outside. -/
theorem slice_set_of_outside {bs : List UInt8} {first last : Nat} (h : i < first ∨ last ≤ i) :
    slice (bs.set i b') first last = slice bs first last := by
  rw [Bytes.slice_set]
  split
  · rfl
  · refine List.set_eq_of_length_le ?_
    unfold slice
    rw [List.length_take]
    omega

/-- The length that a frame declares is changed only with one of its four bytes. -/
theorem declaredLength_set (hlen : payload.length ≤ maxFrameSize) (h : i < 8 ∨ 12 ≤ i) :
    declaredLength ((encodeFrame kind payload).set i b') = payload.length := by
  rw [declaredLength, slice_set_of_outside h, slice_encodeFrame (by decide), get_header_length hlen]

theorem slice_magic : slice (encodeFrame kind payload) 0 4 = magic :=
  (slice_encodeFrame (by decide)).trans slice_header_magic

theorem get_version : Bytes.get (slice (encodeFrame kind payload) 4 6) = version := by
  rw [slice_encodeFrame (by decide), get_header_version]

theorem get_checksum : Bytes.get (slice (encodeFrame kind payload) 12 16) = Bytes.crc32c payload := by
  rw [slice_encodeFrame (by decide), get_header_checksum]

theorem length_set_encodeFrame :
    ((encodeFrame kind payload).set i b').length = headerSize + payload.length := by
  rw [List.length_set, encodeFrame, List.length_append, length_header]

/-- A change that is not found out has not touched what is compared. -/
theorem place_of_accepted (hlen : payload.length ≤ maxFrameSize)
    (hb : (encodeFrame kind payload)[i]? = some b) (hne : b' ≠ b)
    (h : Accepted ((encodeFrame kind payload).set i b')) : i = 6 ∨ i = 7 ∨
      declaredLength ((encodeFrame kind payload).set i b') < payload.length ∧
        Bytes.crc32c (payload.take (declaredLength ((encodeFrame kind payload).set i b'))) =
          Bytes.crc32c payload := by
  have hfit := h.length
  rw [length_set_encodeFrame] at hfit
  have hsame := h.checksum
  -- The four fields that are checked, and the payload, from the left to the right.
  rcases Nat.lt_or_ge i 4 with h4 | h4
  · refine absurd ?_ (get_slice_set_ne 0 4 hb hne (Nat.zero_le i) h4)
    rw [h.magic, slice_magic]
  rcases Nat.lt_or_ge i 6 with h6 | h6
  · refine absurd ?_ (get_slice_set_ne 4 6 hb hne h4 h6)
    rw [h.version, get_version]
  rcases Nat.lt_or_ge i 8 with h8 | h8
  · omega
  rcases Nat.lt_or_ge i 12 with h12 | h12
  · have hother : declaredLength ((encodeFrame kind payload).set i b') ≠ payload.length := by
      have hlength : declaredLength (encodeFrame kind payload) = payload.length := by
        rw [declaredLength, slice_encodeFrame (by decide), get_header_length hlen]
      rw [← hlength]
      exact get_slice_set_ne 8 12 hb hne h8 h12
    rw [drop_set_header (by unfold headerSize; omega), slice_set_of_outside (.inl h12),
      get_checksum] at hsame
    exact .inr (.inr ⟨by omega, hsame⟩)
  rw [declaredLength_set hlen (.inr h12)] at hsame
  rcases Nat.lt_or_ge i headerSize with h16 | h16
  · rw [drop_set_header h16, List.take_length] at hsame
    refine absurd ?_ (get_slice_set_ne 12 16 hb hne h12 h16)
    rw [← hsame, get_checksum]
  · rw [drop_set_payload h16, List.take_of_length_le (by rw [List.length_set]),
      slice_set_of_outside (show i < 12 ∨ 16 ≤ i from .inr h16), get_checksum] at hsame
    refine absurd hsame (Bytes.crc32c_set_ne ?_ hne)
    have hdrop : (encodeFrame kind payload)[i]? = payload[i - headerSize]? := by
      rw [encodeFrame, List.getElem?_append_right (by rw [length_header]; exact h16),
        length_header]
    exact hdrop ▸ hb

/-- Which changes of a byte are not found out. -/
theorem changed_accepted_iff (hlen : payload.length ≤ maxFrameSize)
    (hb : (encodeFrame kind payload)[i]? = some b) (hne : b' ≠ b) :
    Accepted ((encodeFrame kind payload).set i b') ↔ i = 6 ∨ i = 7 ∨
      declaredLength ((encodeFrame kind payload).set i b') < payload.length ∧
        Bytes.crc32c (payload.take (declaredLength ((encodeFrame kind payload).set i b'))) =
          Bytes.crc32c payload := by
  refine ⟨place_of_accepted hlen hb hne, fun h => ?_⟩
  -- a change of the kind, or of the length, is outside of everything that is compared
  have hplace : 6 ≤ i ∧ i < 12 ∧ declaredLength ((encodeFrame kind payload).set i b') ≤
      payload.length ∧
      Bytes.crc32c (payload.take (declaredLength ((encodeFrame kind payload).set i b'))) =
        Bytes.crc32c payload := by
    by_cases houtside : i < 8 ∨ 12 ≤ i
    · have hsame : declaredLength ((encodeFrame kind payload).set i b') = payload.length :=
        declaredLength_set hlen houtside
      rw [hsame, List.take_length]
      omega
    · omega
  obtain ⟨hfirst, hlast, hle, hcut⟩ := hplace
  constructor
  · rw [slice_set_of_outside (.inr (by omega)), slice_magic]
  · rw [slice_set_of_outside (.inr (by omega)), get_version]
  · exact Nat.le_trans hle hlen
  · rw [length_set_encodeFrame]
    omega
  · rw [drop_set_header (by unfold headerSize; omega), hcut, slice_set_of_outside (.inl hlast),
      get_checksum]

end Changed

/-! ## One changed bit -/

theorem flipBit_eq_set {bs : List UInt8} {i : Nat} (hi : i < bs.length) (bit : Fin 8) :
    flipBit bs i bit = bs.set i (bs[i] ^^^ (1 <<< UInt8.ofNat bit.val)) :=
  List.modify_eq_set_get _ hi

/-- Which of the frames with one bit changed are found out. A frame is written by any writer that
takes the bytes, and the bit `bit` of byte `i` of what was written is changed. Reading reports an
error exactly if the bit is none of the two bytes of the kind and, in case the length that the
header now declares is shorter than the payload, the payload cut to that length has another
checksum than the whole. -/
theorem flipped_bit_refused (w : Writer) (hw : w.Accepts) (hempty : w.written = []) (kind : Kind)
    (payload : List UInt8) (hlen : payload.length ≤ maxFrameSize) :
    ∃ w', writeFrame w kind payload = (none, w') ∧
      ∀ (i : Nat) (bit : Fin 8), i < w'.written.length →
        ((∃ err rest, readFrame (flipBit w'.written i bit) = (.error err, rest)) ↔
          i ≠ 6 ∧ i ≠ 7 ∧ (declaredLength (flipBit w'.written i bit) < payload.length →
            Bytes.crc32c (payload.take (declaredLength (flipBit w'.written i bit))) ≠
              Bytes.crc32c payload)) := by
  obtain ⟨w', hwrite, hwritten, -⟩ := writeFrame_accepts hw kind hlen
  rw [hempty, List.nil_append] at hwritten
  refine ⟨w', hwrite, fun i bit hi => ?_⟩
  rw [hwritten] at hi ⊢
  have hchanged := changed_accepted_iff hlen (List.getElem?_eq_getElem hi)
    (Bytes.xor_bit_ne _ bit.isLt)
  rw [← flipBit_eq_set hi bit, ← readFrame_ok_iff] at hchanged
  have herror : (∃ err rest, readFrame (flipBit (encodeFrame kind payload) i bit) =
      (.error err, rest)) ↔
      ¬ ∃ frame rest, readFrame (flipBit (encodeFrame kind payload) i bit) = (.ok frame, rest) := by
    cases readFrame (flipBit (encodeFrame kind payload) i bit) with
    | mk result rest => cases result <;> simp
  rw [herror, hchanged]
  simp only [not_or, not_and]

/-- A writer that takes a byte at a time. -/
def slowWriter : Writer := { answers := fun _ => (1, none) }

/-- A frame with a changed checksum. -/
theorem flipped_bit_refused_checksum : ∃ w' err rest,
    writeFrame slowWriter .clientRequest [1, 2, 3] = (none, w') ∧
      readFrame (flipBit w'.written 13 5) = (.error err, rest) := by
  have haccepts : slowWriter.Accepts := fun _ => ⟨Nat.one_pos, rfl⟩
  have hlen : ([1, 2, 3] : List UInt8).length ≤ maxFrameSize := by decide
  obtain ⟨w', hwrite, hrefused⟩ := flipped_bit_refused slowWriter haccepts rfl .clientRequest _ hlen
  obtain ⟨w'', hwrite', hwritten, -⟩ := writeFrame_accepts haccepts .clientRequest hlen
  obtain rfl : w' = w'' := congrArg Prod.snd (hwrite.symm.trans hwrite')
  have hbytes : w'.written = encodeFrame .clientRequest [1, 2, 3] := hwritten
  have hlength : ¬ declaredLength (flipBit w'.written 13 5) < ([1, 2, 3] : List UInt8).length := by
    rw [hbytes]
    decide +kernel
  obtain ⟨err, rest, hread⟩ := (hrefused 13 5 (by rw [hbytes]; decide)).mpr
    ⟨by decide, by decide, fun hcut => absurd hcut hlength⟩
  exact ⟨w', err, rest, hwrite, hread⟩

/-- A frame between peers with a changed kind is read as an answer to a client; and a frame whose
four bytes have the checksum of no bytes at all, as an empty frame. -/
theorem changed_kind_accepted :
    readFrame (flipBit (encodeFrame .peer [1, 2, 3]) 6 1) = (.ok (.clientResponse, [1, 2, 3]), []) ∧
    readFrame (flipBit (encodeFrame .peer [171, 155, 224, 155]) 8 2) =
      (.ok (.peer, []), [171, 155, 224, 155]) := by
  decide +kernel

end Promtact.Protocol
