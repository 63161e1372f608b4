import Promtact.Storage.Wal

/-!
# Snapshot files

The checksummed image of a snapshot and the file that holds the latest one
(`snapshot.go`, `store.go`). The image is written to another file, which is synced
and then takes the place of the old one, so that a crash leaves the old image or
the new one: `Store.save` is a single durable write.

A file is accepted only when it is the encoding of its image (`encode_decode`).
-/

namespace Promtact.Storage.Snapshot

open Bytes (slice)
open Wal (putWord getWord)

/-! ## Images -/

inductive Error
  | format | checksum | regression
  deriving DecidableEq, Repr

def Error.text : Error → String
  | .format => "snapshot: invalid image"
  | .checksum => "snapshot: checksum mismatch"
  | .regression => "snapshot: index regression"

def headerSize : Nat := 52

def magic : List UInt8 := [0x48, 0x59, 0x50, 0x53, 0x4E, 0x41, 0x50, 0x32]

structure Image where
  lastIndex : BitVec 64 := 0
  lastTerm : BitVec 64 := 0
  state : List UInt8 := []
  oldVoters : BitVec 64 := 0
  newVoters : BitVec 64 := 0
  deriving DecidableEq, Repr

/-- The header without the checksum. -/
def header (image : Image) : List UInt8 :=
  magic ++ (putWord image.lastIndex ++ (putWord image.lastTerm ++ (putWord image.oldVoters ++
    (putWord image.newVoters ++ Bytes.put 8 image.state.length))))

def encode (image : Image) : List UInt8 :=
  header image ++ (Bytes.put 4 (Bytes.crc32c (header image ++ image.state)) ++ image.state)

def decode (data : List UInt8) : Except Error Image :=
  if data.length < headerSize ∨ slice data 0 8 ≠ magic then throw .format
  else
    let length := Bytes.get (slice data 40 48)
    -- the sum is one of 64-bit numbers
    if length > data.length - headerSize ∨ data.length ≠ (headerSize + length) % 2 ^ 64 then
      throw .format
    else if Bytes.crc32c (slice data 0 48 ++ data.drop headerSize) ≠
        Bytes.get (slice data 48 52) then
      throw .checksum
    else return {
      lastIndex := getWord data 8
      lastTerm := getWord data 16
      oldVoters := getWord data 24
      newVoters := getWord data 32
      state := data.drop headerSize }

@[simp] theorem length_magic : magic.length = 8 := by
  simp [magic]

@[simp] theorem length_header (image : Image) : (header image).length = 48 := by
  simp [header]

theorem length_encode (image : Image) :
    (encode image).length = headerSize + image.state.length := by
  simp [encode, headerSize]
  omega

section Fields

attribute [local simp] Bytes.slice_left Bytes.slice_right Bytes.slice_all

variable {image : Image} {first : Nat}

theorem getWord_encode {x : BitVec 64} (hf : first + 8 ≤ 48)
    (hx : slice (header image) first (first + 8) = putWord x) :
    getWord (encode image) first = x := by
  rw [getWord, encode, Bytes.slice_left (by simpa using hf), hx, putWord,
    Bytes.get_put_of_lt (Nat.lt_of_lt_of_le x.isLt (by decide)), BitVec.ofNat_toNat,
    BitVec.setWidth_eq]

theorem drop_encode : (encode image).drop headerSize = image.state := by
  rw [encode, ← List.append_assoc, List.drop_left' (by simp [headerSize])]

/-- Reading back an image gives every field of it. -/
theorem decode_encode (hlen : headerSize + image.state.length < 2 ^ 64) :
    decode (encode image) = .ok image := by
  have hlength : Bytes.get (slice (encode image) 40 48) = image.state.length := by
    have hput : slice (encode image) 40 48 = Bytes.put 8 image.state.length := by
      simp [encode, header]
    rw [hput, Bytes.get_put_of_lt (by unfold headerSize at hlen; omega)]
  have hmagic : slice (encode image) 0 8 = magic := by
    simp [encode, header]
  have hchecksum : Bytes.crc32c (slice (encode image) 0 48 ++ (encode image).drop headerSize) =
      Bytes.get (slice (encode image) 48 52) := by
    rw [drop_encode]
    simp [encode, Bytes.get_put_of_lt (Bytes.crc32c_lt _)]
  unfold decode
  simp only [hlength]
  rw [if_neg (by rw [length_encode, hmagic]; simp), if_neg (by
      rw [length_encode, Nat.mod_eq_of_lt hlen]; omega), if_neg (by rw [hchecksum]; simp),
    getWord_encode (x := image.lastIndex) (by decide) (by simp [header]),
    getWord_encode (x := image.lastTerm) (by decide) (by simp [header]),
    getWord_encode (x := image.oldVoters) (by decide) (by simp [header]),
    getWord_encode (x := image.newVoters) (by decide) (by simp [header]), drop_encode]
  rfl

end Fields

/-! ## The format is canonical -/

section Canonical

variable {data : List UInt8} {image : Image}

/-- What an accepted file has to be. The sum of 64-bit numbers does not wrap: the length
is one of bytes that are there. -/
theorem decode_ok (h : decode data = .ok image) :
    slice data 0 8 = magic ∧ data.length = headerSize + Bytes.get (slice data 40 48) ∧
      data.length < 2 ^ 64 ∧
      Bytes.crc32c (slice data 0 48 ++ data.drop headerSize) = Bytes.get (slice data 48 52) ∧
      image = {
        lastIndex := getWord data 8
        lastTerm := getWord data 16
        oldVoters := getWord data 24
        newVoters := getWord data 32
        state := data.drop headerSize } := by
  unfold decode at h
  split at h
  · cases h
  rename_i hformat
  simp only [not_or, not_lt, not_not] at hformat
  dsimp only at h
  split at h
  · cases h
  rename_i hlength
  simp only [not_or, not_lt, not_not] at hlength
  split at h
  · cases h
  rename_i hchecksum
  rw [not_not] at hchecksum
  cases h
  obtain ⟨hbound, hsum⟩ := hlength
  have hlt : data.length < 2 ^ 64 := by
    rw [hsum]
    exact Nat.mod_lt _ (by decide)
  refine ⟨hformat.2, ?_, hlt, hchecksum, rfl⟩
  rwa [Nat.mod_eq_of_lt (by omega)] at hsum

theorem putWord_getWord {first : Nat} (hl : first + 8 ≤ data.length) :
    putWord (getWord data first) = slice data first (first + 8) := by
  have hlen : (slice data first (first + 8)).length = 8 := by
    rw [Bytes.length_slice hl, Nat.add_sub_cancel_left]
  have hlt : Bytes.get (slice data first (first + 8)) < 2 ^ 64 := by
    have := Bytes.get_lt (slice data first (first + 8))
    rwa [hlen] at this
  unfold putWord getWord
  rw [BitVec.toNat_ofNat, Nat.mod_eq_of_lt hlt, Bytes.put_get hlen]

/-- An accepted file is the encoding of what it decodes to. -/
theorem encode_decode (h : decode data = .ok image) : encode image = data := by
  obtain ⟨hmagic, hlength, _, hchecksum, himage⟩ := decode_ok h
  have hlen : headerSize ≤ data.length := by omega
  have hstate : image.state = data.drop headerSize := by rw [himage]
  unfold headerSize at hlen hlength
  have hfield : Bytes.put 8 image.state.length = slice data 40 48 := by
    rw [hstate, List.length_drop, hlength, headerSize, Nat.add_sub_cancel_left]
    exact Bytes.put_get (Bytes.length_slice (by omega))
  have hsum : Bytes.put 4 (Bytes.get (slice data 48 52)) = slice data 48 52 :=
    Bytes.put_get (Bytes.length_slice (by omega))
  have hheader : header image = slice data 0 48 := by
    unfold header
    rw [hfield, himage, ← hmagic, putWord_getWord (by omega), putWord_getWord (by omega),
      putWord_getWord (by omega), putWord_getWord (by omega),
      Bytes.slice_append_slice (by decide) (by decide),
      Bytes.slice_append_slice (by decide) (by decide),
      Bytes.slice_append_slice (by decide) (by decide),
      Bytes.slice_append_slice (by decide) (by decide),
      Bytes.slice_append_slice (by decide) (by decide)]
  unfold encode
  rw [hheader, hstate, hchecksum, hsum, headerSize, Bytes.slice_append_drop (by decide),
    Bytes.slice_append_drop (by decide), List.drop_zero]

/-- Every image whose length fits is read back, and a file is accepted only when it is the
encoding of its image, with as many bytes as it declares. -/
theorem format_canonical :
    (∀ image, decode (encode image) = .ok image ↔ headerSize + image.state.length < 2 ^ 64) ∧
    (∀ data image, decode data = .ok image → encode image = data ∧
      data.length = headerSize + Bytes.get (slice data 40 48)) ∧
    ∀ data data' image, decode data = .ok image → decode data' = .ok image → data = data' := by
  refine ⟨fun image => ⟨fun h => ?_, decode_encode⟩, fun data image h => ?_,
    fun data data' image h h' => ?_⟩
  · obtain ⟨_, _, hlt, _⟩ := decode_ok h
    rwa [length_encode] at hlt
  · exact ⟨encode_decode h, (decode_ok h).2.1⟩
  · rw [← encode_decode h, ← encode_decode h']

end Canonical

/-! ## The store -/

/-- The file, and the last index of the image in it. -/
structure Store where
  file : Option (List UInt8) := none
  last : BitVec 64 := 0
  deriving DecidableEq

/-- Opening a store; there may be no file yet. -/
def openStore (file : Option (List UInt8)) : Except Error (Store × Image) :=
  match file with
  | none => return ({}, {})
  | some data =>
    match decode data with
    | .error e => throw e
    | .ok image => return ({ file := file, last := image.lastIndex }, image)

def Store.save (image : Image) (s : Store) : Except Error Store :=
  if image.lastIndex < s.last then throw .regression
  else return { file := some (encode image), last := image.lastIndex }

/-- The store holds the image, or nothing when the image is empty. -/
def Store.Holds (s : Store) (image : Image) : Prop := openStore s.file = .ok (s, image)

theorem fresh_holds : Store.Holds {} {} := rfl

theorem Store.Holds.last {s : Store} {image : Image} (h : s.Holds image) :
    s.last = image.lastIndex := by
  obtain ⟨file, last⟩ := s
  unfold Store.Holds openStore at h
  split at h
  · cases h
    rfl
  · split at h <;> cases h
    rfl

theorem Store.save_error {s : Store} {image : Image} (h : image.lastIndex < s.last) :
    s.save image = .error .regression := if_pos h

theorem Store.save_ok {s : Store} {image : Image} (h : ¬ image.lastIndex < s.last) :
    s.save image = .ok { file := some (encode image), last := image.lastIndex } := if_neg h

theorem saved_holds {image : Image} (hlen : headerSize + image.state.length < 2 ^ 64) :
    Store.Holds { file := some (encode image), last := image.lastIndex } image := by
  simp only [Store.Holds, openStore, decode_encode hlen]
  rfl

end Promtact.Storage.Snapshot
