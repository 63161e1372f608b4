import Promtact.Bytes

/-!
# Frames

The framing of the wire format (`frame.go`): a header with the magic, the version, the
kind, the length and the checksum of the payload, and the payload.

A `Writer` takes some of the bytes that it is given and may fail; `writeFull` repeats the
call until everything is written. A reader is the bytes that are still to come.
-/

namespace Promtact.Protocol

open Bytes (slice)

/-! ## Kinds -/

def version : Nat := 1

def headerSize : Nat := 16

def maxFrameSize : Nat := 2 ^ 20

/-- Kinds are numbered from one; `other` are zero and the numbers behind the named ones. -/
inductive Kind
  | peer | clientRequest | clientResponse
  | other (code : Fin 65533)
  deriving DecidableEq, Repr

def Kind.code : Kind → Nat
  | .other code => if code.val = 0 then 0 else code.val + 3
  | .peer => 1
  | .clientRequest => 2
  | .clientResponse => 3

def kindOf : Nat → Kind
  | 0 => .other 0
  | 1 => .peer
  | 2 => .clientRequest
  | 3 => .clientResponse
  | n + 4 => .other (Fin.ofNat 65533 (n + 1))

theorem kindOf_code (kind : Kind) : kindOf kind.code = kind := by
  cases kind with
  | other code =>
    obtain ⟨code, hcode⟩ := code
    cases code with
    | zero => rfl
    | succ n =>
      rw [Kind.code, if_neg (Nat.succ_ne_zero n)]
      exact congrArg Kind.other (Fin.ext (Nat.mod_eq_of_lt hcode))
  | _ => rfl

theorem Kind.code_lt (kind : Kind) : kind.code < 256 ^ 2 := by
  cases kind with
  | other code =>
    have := code.isLt
    simp only [Kind.code]
    split <;> omega
  | _ => decide

inductive Error
  | frame | version | frameTooLarge | clientOperation
  | shortWrite | eof | unexpectedEOF
  | writer (text : String)
  deriving DecidableEq, Repr

def Error.text : Error → String
  | .frame => "protocol: invalid frame"
  | .version => "protocol: unsupported version"
  | .frameTooLarge => "protocol: frame too large"
  | .clientOperation => "protocol: invalid client operation"
  | .shortWrite => "short write"
  | .eof => "EOF"
  | .unexpectedEOF => "unexpected EOF"
  | .writer text => text

/-! ## Writing -/

structure Writer where
  written : List UInt8 := []
  /-- What the coming calls answer: how many bytes they take at most, and an error. -/
  answers : Nat → Nat × Option Error

namespace Writer

def write (w : Writer) (data : List UInt8) : Nat × Option Error × Writer :=
  let n := min (w.answers 0).1 data.length
  (n, (w.answers 0).2, {
    written := w.written ++ data.take n, answers := fun i => w.answers (i + 1) })

/-- Every call takes some bytes and none fails. -/
def Accepts (w : Writer) : Prop := ∀ i, 0 < (w.answers i).1 ∧ (w.answers i).2 = none

end Writer

def writeFull (w : Writer) (data : List UInt8) : Option Error × Writer :=
  if data = [] then (none, w)
  else
    match w.write data with
    | (_, some err, w) => (some err, w)
    | (n, none, w) => if n = 0 then (some .shortWrite, w) else writeFull w (data.drop n)
termination_by data.length
decreasing_by
  have := List.length_pos_iff.mpr ‹data ≠ []›
  rw [List.length_drop]
  omega

def magic : List UInt8 := [0x48, 0x59, 0x50, 0x52]

def header (kind : Kind) (payload : List UInt8) : List UInt8 :=
  [magic, Bytes.put 2 version, Bytes.put 2 kind.code, Bytes.put 4 payload.length,
    Bytes.put 4 (Bytes.crc32c payload)].flatten

def writeFrame (w : Writer) (kind : Kind) (payload : List UInt8) : Option Error × Writer :=
  if payload.length > maxFrameSize then (some .frameTooLarge, w)
  else
    match writeFull w (header kind payload) with
    | (some err, w) => (some err, w)
    | (none, w) => writeFull w payload

/-- A writer that accepts gets everything, in any number of pieces. -/
theorem writeFull_accepts {w : Writer} (hw : w.Accepts) (data : List UInt8) :
    ∃ w', writeFull w data = (none, w') ∧ w'.written = w.written ++ data ∧ w'.Accepts := by
  induction hlen : data.length using Nat.strong_induction_on generalizing w data with
  | _ len ih =>
    rw [writeFull]
    by_cases hnil : data = []
    · subst hnil
      exact ⟨w, if_pos rfl, (List.append_nil _).symm, hw⟩
    · have hpos := List.length_pos_iff.mpr hnil
      obtain ⟨htakes, herr⟩ := hw 0
      have hrest : ({ written := w.written ++ data.take (min (w.answers 0).1 data.length)
                      answers := fun i => w.answers (i + 1) } : Writer).Accepts :=
        fun i => hw (i + 1)
      obtain ⟨w', hfull, hwritten, haccepts⟩ := ih _ (by rw [List.length_drop]; omega) hrest
        (data.drop (min (w.answers 0).1 data.length)) rfl
      refine ⟨w', ?_, ?_, haccepts⟩
      · simp only [if_neg hnil, Writer.write, herr]
        rw [if_neg (by omega), hfull]
      · rw [hwritten, List.append_assoc, List.take_append_drop]

/-- A frame as it is on the wire. -/
def encodeFrame (kind : Kind) (payload : List UInt8) : List UInt8 := header kind payload ++ payload

theorem writeFrame_accepts {w : Writer} (hw : w.Accepts) (kind : Kind) {payload : List UInt8}
    (hlen : payload.length ≤ maxFrameSize) : ∃ w', writeFrame w kind payload = (none, w') ∧
      w'.written = w.written ++ encodeFrame kind payload ∧ w'.Accepts := by
  obtain ⟨w₁, hfull₁, hwritten₁, hw₁⟩ := writeFull_accepts hw (header kind payload)
  obtain ⟨w₂, hfull₂, hwritten₂, hw₂⟩ := writeFull_accepts hw₁ payload
  refine ⟨w₂, ?_, ?_, hw₂⟩
  · rw [writeFrame, if_neg (Nat.not_lt.mpr hlen), hfull₁]
    exact hfull₂
  · rw [hwritten₂, hwritten₁, List.append_assoc]
    rfl

/-! ## Reading -/

/-- Exactly `n` bytes, or the error of a stream that ends before. -/
def readFull (n : Nat) (r : List UInt8) : Except Error (List UInt8) × List UInt8 :=
  if n ≤ r.length then (.ok (r.take n), r.drop n)
  else (.error (if r = [] then .eof else .unexpectedEOF), [])

def readFrame (r : List UInt8) : Except Error (Kind × List UInt8) × List UInt8 :=
  match readFull headerSize r with
  | (.error err, r) => (.error err, r)
  | (.ok header, r) =>
    if slice header 0 4 ≠ magic then (.error .frame, r)
    else if Bytes.get (slice header 4 6) ≠ version then (.error .version, r)
    else
      let length := Bytes.get (slice header 8 12)
      if length > maxFrameSize then (.error .frameTooLarge, r)
      else
        match readFull length r with
        | (.error err, r) => (.error err, r)
        | (.ok payload, r) =>
          if Bytes.crc32c payload ≠ Bytes.get (slice header 12 16) then (.error .frame, r)
          else (.ok (kindOf (Bytes.get (slice header 6 8)), payload), r)

theorem readFull_append {data : List UInt8} {n : Nat} (hn : data.length = n) (rest : List UInt8) :
    readFull n (data ++ rest) = (.ok data, rest) := by
  unfold readFull
  rw [if_pos (by rw [List.length_append]; omega), List.take_left' hn, List.drop_left' hn]

section Header

variable {kind : Kind} {payload : List UInt8}

theorem length_header : (header kind payload).length = headerSize := by
  simp [header, magic, headerSize]

/-- A field of the header. -/
theorem slice_header {i first last : Nat} {field : List UInt8}
    (hi : [magic, Bytes.put 2 version, Bytes.put 2 kind.code, Bytes.put 4 payload.length,
      Bytes.put 4 (Bytes.crc32c payload)][i]? = some field)
    (hf : (([4, 2, 2, 4, 4] : List Nat).take i).sum = first) (hl : first + field.length = last) :
    slice (header kind payload) first last = field := by
  refine Bytes.slice_flatten hi ?_ hl
  simpa [magic] using hf

theorem slice_header_magic : slice (header kind payload) 0 4 = magic := slice_header (i := 0) rfl rfl rfl

theorem get_header_version : Bytes.get (slice (header kind payload) 4 6) = version := by
  have hversion : slice (header kind payload) 4 6 = Bytes.put 2 version :=
    slice_header (i := 1) rfl rfl (by simp)
  rw [hversion, Bytes.get_put_of_lt (by decide)]

theorem kindOf_header : kindOf (Bytes.get (slice (header kind payload) 6 8)) = kind := by
  have hkind : slice (header kind payload) 6 8 = Bytes.put 2 kind.code :=
    slice_header (i := 2) rfl rfl (by simp)
  rw [hkind, Bytes.get_put_of_lt kind.code_lt, kindOf_code]

theorem get_header_length (hlen : payload.length ≤ maxFrameSize) :
    Bytes.get (slice (header kind payload) 8 12) = payload.length := by
  have hlength : slice (header kind payload) 8 12 = Bytes.put 4 payload.length :=
    slice_header (i := 3) rfl rfl (by simp)
  rw [hlength]
  refine Bytes.get_put_of_lt ?_
  unfold maxFrameSize at hlen
  omega

theorem get_header_checksum :
    Bytes.get (slice (header kind payload) 12 16) = Bytes.crc32c payload := by
  have hcrc : slice (header kind payload) 12 16 = Bytes.put 4 (Bytes.crc32c payload) :=
    slice_header (i := 4) rfl rfl (by simp)
  rw [hcrc, Bytes.get_put_of_lt (Bytes.crc32c_lt payload)]

end Header

/-- Reading a frame back takes its bytes and no others. -/
theorem readFrame_encodeFrame (kind : Kind) {payload : List UInt8}
    (hlen : payload.length ≤ maxFrameSize) (rest : List UInt8) :
    readFrame (encodeFrame kind payload ++ rest) = (.ok (kind, payload), rest) := by
  unfold readFrame encodeFrame
  rw [List.append_assoc, readFull_append length_header]
  simp only [slice_header_magic, get_header_version, kindOf_header, get_header_length hlen,
    get_header_checksum]
  rw [if_neg (by simp), if_neg (by simp), if_neg (Nat.not_lt.mpr hlen), readFull_append rfl]
  simp only [ne_eq, not_true_eq_false, if_false]

/-! ## Streams -/

/-- Writing frames one after the other, up to the first error. -/
def writeFrames (w : Writer) : List (Kind × List UInt8) → Option Error × Writer
  | [] => (none, w)
  | (kind, payload) :: frames =>
    match writeFrame w kind payload with
    | (some err, w) => (some err, w)
    | (none, w) => writeFrames w frames

/-- Reading a number of frames, up to the first error. -/
def readFrames : Nat → List UInt8 → Except Error (List (Kind × List UInt8)) × List UInt8
  | 0, r => (.ok [], r)
  | n + 1, r =>
    match readFrame r with
    | (.error err, r) => (.error err, r)
    | (.ok frame, r) =>
      match readFrames n r with
      | (.error err, r) => (.error err, r)
      | (.ok frames, r) => (.ok (frame :: frames), r)

/-- The bytes of a list of frames. -/
def encodeFrames (frames : List (Kind × List UInt8)) : List UInt8 :=
  (frames.map fun frame => encodeFrame frame.1 frame.2).flatten

theorem writeFrames_accepts {frames : List (Kind × List UInt8)} {w : Writer} (hw : w.Accepts)
    (hlen : ∀ frame ∈ frames, frame.2.length ≤ maxFrameSize) :
    ∃ w', writeFrames w frames = (none, w') ∧ w'.written = w.written ++ encodeFrames frames := by
  induction frames generalizing w with
  | nil => exact ⟨w, rfl, (List.append_nil _).symm⟩
  | cons frame frames ih =>
    obtain ⟨kind, payload⟩ := frame
    obtain ⟨w₁, hframe, hwritten, hw₁⟩ := writeFrame_accepts hw kind (hlen _ List.mem_cons_self)
    obtain ⟨w₂, hframes, hwritten₂⟩ := ih hw₁ fun frame hf => hlen frame (List.mem_cons_of_mem _ hf)
    refine ⟨w₂, ?_, ?_⟩
    · rw [writeFrames, hframe]
      exact hframes
    · rw [hwritten₂, hwritten, List.append_assoc]
      rfl

theorem readFrames_encodeFrames {frames : List (Kind × List UInt8)}
    (hlen : ∀ frame ∈ frames, frame.2.length ≤ maxFrameSize) (rest : List UInt8) :
    readFrames frames.length (encodeFrames frames ++ rest) = (.ok frames, rest) := by
  induction frames with
  | nil => rfl
  | cons frame frames ih =>
    have hread := readFrame_encodeFrame frame.1 (hlen _ List.mem_cons_self) (encodeFrames frames ++ rest)
    have hrest := ih fun frame hf => hlen frame (List.mem_cons_of_mem _ hf)
    show readFrames (frames.length + 1) ((encodeFrame frame.1 frame.2 ++ encodeFrames frames) ++ rest) = _
    rw [List.append_assoc, readFrames, hread]
    simp only [hrest]

end Promtact.Protocol
