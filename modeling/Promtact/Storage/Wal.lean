import Promtact.Bytes

/-!
# The write-ahead log

A log of fixed-size records over a device (`storage/wal`). Appending stages
records, `sync` makes them durable. A record carries a sequence number and a
checksum; opening a log checks both in every complete record, and cuts off the
torn record that a crash may have left at the end.

`Journal` is what a log is for: two lists of entries, those that are durable and
those that a crash may lose. `crash_consistent` says that a log over a
`MemoryDevice` is a journal, whatever is appended and whenever it crashes.
-/

namespace Promtact.Storage

open Bytes (slice zeros)

/-- The stable form of one command (`storage.Entry`). -/
structure Entry where
  index : BitVec 64 := 0
  term : BitVec 64 := 0
  command : BitVec 64 := 0
  kind : UInt8 := 0
  oldVoters : BitVec 64 := 0
  newVoters : BitVec 64 := 0
  operation : UInt8 := 0
  clientID : BitVec 64 := 0
  requestID : BitVec 64 := 0
  key : BitVec 64 := 0
  value : BitVec 64 := 0
  deriving DecidableEq, Repr

namespace Wal

/-! ## Records -/

inductive Error
  | checksum | format | sequence | invalidTear | context | device
  deriving DecidableEq, Repr

def Error.text : Error → String
  | .checksum => "wal: checksum mismatch"
  | .format => "wal: invalid record format"
  | .sequence => "wal: non-contiguous sequence"
  | .invalidTear => "wal: invalid torn-write length"
  | .context => "context canceled"
  | .device => "device failure"

def recordSize : Nat := 112

def version : Nat := 3

def magic : List UInt8 := [0x48, 0x59, 0x50, 0x57, 0x41, 0x4C, 0x30, 0x33]

structure Record where
  sequence : BitVec 64
  entry : Entry
  deriving DecidableEq, Repr

def putWord (x : BitVec 64) : List UInt8 := Bytes.put 8 x.toNat

def putByte (x : UInt8) : List UInt8 := Bytes.put 2 x.toNat

/-- A record without its checksum. -/
def body (r : Record) : List UInt8 :=
  magic ++ (Bytes.put 2 version ++ (Bytes.put 2 0 ++ (putWord r.sequence ++
    (putWord r.entry.index ++ (putWord r.entry.term ++ (putWord r.entry.command ++
    (putByte r.entry.kind ++ (zeros 6 ++ (putWord r.entry.oldVoters ++
    (putWord r.entry.newVoters ++ (putByte r.entry.operation ++ (zeros 2 ++
    (putWord r.entry.clientID ++ (putWord r.entry.requestID ++ (putWord r.entry.key ++
    (putWord r.entry.value ++ zeros 4))))))))))))))))

def encode (r : Record) : List UInt8 := body r ++ Bytes.put 4 (Bytes.crc32c (body r))

def getWord (src : List UInt8) (first : Nat) : BitVec 64 :=
  BitVec.ofNat 64 (Bytes.get (slice src first (first + 8)))

/-- A byte that is stored in two. -/
def getByte (src : List UInt8) (first : Nat) : UInt8 :=
  UInt8.ofNat (Bytes.get (slice src first (first + 2)))

def decode (src : List UInt8) : Except Error Record :=
  if src.length ≠ recordSize ∨ slice src 0 8 ≠ magic ∨ Bytes.get (slice src 8 10) ≠ version then
    throw .format
  else if Bytes.crc32c (slice src 0 108) ≠ Bytes.get (slice src 108 112) then throw .checksum
  else return {
    sequence := getWord src 12
    entry := {
      index := getWord src 20
      term := getWord src 28
      command := getWord src 36
      kind := getByte src 44
      oldVoters := getWord src 52
      newVoters := getWord src 60
      operation := getByte src 68
      clientID := getWord src 72
      requestID := getWord src 80
      key := getWord src 88
      value := getWord src 96 } }

@[simp] theorem length_putWord (x : BitVec 64) : (putWord x).length = 8 := Bytes.length_put 8 _

@[simp] theorem length_putByte (x : UInt8) : (putByte x).length = 2 := Bytes.length_put 2 _

@[simp] theorem length_magic : magic.length = 8 := by
  simp [magic]

@[simp] theorem length_body (r : Record) : (body r).length = 108 := by
  simp [body]

@[simp] theorem length_encode (r : Record) : (encode r).length = recordSize := by
  simp [encode, recordSize]

section Fields

attribute [local simp] Bytes.slice_left Bytes.slice_right Bytes.slice_all

variable {r : Record} {first : Nat}

theorem getWord_encode {x : BitVec 64} (hf : first + 8 ≤ 108)
    (hx : slice (body r) first (first + 8) = putWord x) : getWord (encode r) first = x := by
  rw [getWord, encode, Bytes.slice_left (by simpa using hf), hx, putWord,
    Bytes.get_put_of_lt (Nat.lt_of_lt_of_le x.isLt (by decide)), BitVec.ofNat_toNat,
    BitVec.setWidth_eq]

theorem getByte_encode {x : UInt8} (hf : first + 2 ≤ 108)
    (hx : slice (body r) first (first + 2) = putByte x) : getByte (encode r) first = x := by
  rw [getByte, encode, Bytes.slice_left (by simpa using hf), hx, putByte,
    Bytes.get_put_of_lt (Nat.lt_of_lt_of_le x.toNat_lt (by decide)), UInt8.ofNat_toNat]

/-- Reading back a record gives every field of it. -/
theorem decode_encode (r : Record) : decode (encode r) = .ok r := by
  have hformat : ¬ ((encode r).length ≠ recordSize ∨ slice (encode r) 0 8 ≠ magic ∨
      Bytes.get (slice (encode r) 8 10) ≠ version) := by
    have hversion := Bytes.get_put_of_lt (show version < 256 ^ 2 by decide)
    simp [encode, body, recordSize, hversion]
  have hchecksum : ¬ (Bytes.crc32c (slice (encode r) 0 108) ≠
      Bytes.get (slice (encode r) 108 112)) := by
    simp [encode, Bytes.get_put_of_lt (Bytes.crc32c_lt (body r))]
  unfold decode
  rw [if_neg hformat, if_neg hchecksum,
    getWord_encode (x := r.sequence) (by decide) (by simp [body]),
    getWord_encode (x := r.entry.index) (by decide) (by simp [body]),
    getWord_encode (x := r.entry.term) (by decide) (by simp [body]),
    getWord_encode (x := r.entry.command) (by decide) (by simp [body]),
    getByte_encode (x := r.entry.kind) (by decide) (by simp [body]),
    getWord_encode (x := r.entry.oldVoters) (by decide) (by simp [body]),
    getWord_encode (x := r.entry.newVoters) (by decide) (by simp [body]),
    getByte_encode (x := r.entry.operation) (by decide) (by simp [body]),
    getWord_encode (x := r.entry.clientID) (by decide) (by simp [body]),
    getWord_encode (x := r.entry.requestID) (by decide) (by simp [body]),
    getWord_encode (x := r.entry.key) (by decide) (by simp [body]),
    getWord_encode (x := r.entry.value) (by decide) (by simp [body])]
  rfl

end Fields

/-! ## Devices -/

/-- The durable byte surface that a log is built on. A call returns its error, if
any, and the device after the call. -/
class Device (δ : Type) where
  append : List UInt8 → δ → Option Error × δ
  sync : δ → Option Error × δ
  durableBytes : δ → List UInt8 × δ
  truncateDurable : Int → δ → Option Error × δ

/-- Volatile controller state next to stable media. -/
structure MemoryDevice where
  durable : List UInt8 := []
  pending : List UInt8 := []
  deriving DecidableEq

namespace MemoryDevice

instance : Device MemoryDevice where
  append p d := (none, { d with pending := d.pending ++ p })
  sync d := (none, { durable := d.durable ++ d.pending, pending := [] })
  durableBytes d := (d.durable, d)
  truncateDurable size d :=
    if size < 0 ∨ size > d.durable.length then (some .invalidTear, d)
    else (none, { d with durable := d.durable.take size.toNat })

/-- The medium after a power loss that let the first `tornBytes` pending bytes
through. -/
def crash (tornBytes : Int) (d : MemoryDevice) : Except Error MemoryDevice :=
  if tornBytes < 0 ∨ tornBytes > d.pending.length then throw .invalidTear
  else return { durable := d.durable ++ d.pending.take tornBytes.toNat }

theorem durableBytes_eq (d : MemoryDevice) : Device.durableBytes d = (d.durable, d) := rfl

theorem truncateDurable_eq {d : MemoryDevice} {size : Nat} (hs : size ≤ d.durable.length) :
    Device.truncateDurable size d = (none, { d with durable := d.durable.take size }) :=
  if_neg (by omega)

theorem crash_eq {d : MemoryDevice} {torn : Int} (hlo : 0 ≤ torn) (hhi : torn ≤ d.pending.length) :
    d.crash torn = .ok { durable := d.durable ++ d.pending.take torn.toNat } :=
  if_neg (by omega)

theorem crash_ok {d medium : MemoryDevice} {torn : Int} (hc : d.crash torn = .ok medium) :
    medium = ⟨d.durable ++ d.pending.take torn.toNat, []⟩ := by
  unfold crash at hc
  split at hc
  · cases hc
  · cases hc
    rfl

end MemoryDevice

/-! ## The log -/

structure Log (δ : Type) where
  device : δ
  nextSeq : BitVec 64
  deriving DecidableEq

abbrev LogM (δ : Type) := EStateM Error (Log δ)

variable {δ : Type} [Device δ]

/-- A device call; what it did to the device stays when it fails. -/
def call (f : δ → Option Error × δ) : EStateM Error δ Unit := fun d =>
  match f d with
  | (none, d') => .ok () d'
  | (some e, d') => .error e d'

/-- One record of the image, with the sequence number that its place asks for. -/
def recoverRecord (image : List UInt8) (i : Nat) : Except Error Record := do
  let record ← decode (slice image (i * recordSize) ((i + 1) * recordSize))
  if record.sequence ≠ BitVec.ofNat 64 (i + 1) then throw .sequence
  return record

def recoverRecords (image : List UInt8) : Nat → Nat → Except Error (List Record)
  | _, 0 => return []
  | i, count + 1 => do
    let record ← recoverRecord image i
    return record :: (← recoverRecords image (i + 1) count)

/-- The longest verified prefix of records and its length in bytes. -/
def recover (image : List UInt8) : Except Error (List Record × Nat) := do
  let count := image.length / recordSize
  return (← recoverRecords image 0 count, count * recordSize)

/-- The number behind the last record. -/
def nextSequence (records : List Record) : BitVec 64 :=
  match records.getLast? with
  | some record => record.sequence + 1
  | none => 1

/-- Opening a log over a device (`Open`). -/
def openLog : EStateM Error δ (Log δ × List Record) := do
  let image ← modifyGet Device.durableBytes
  match recover image with
  | .error e => throw e
  | .ok (records, validBytes) =>
    let again ← modifyGet Device.durableBytes
    if validBytes ≠ again.length then call (Device.truncateDurable validBytes)
    return (⟨← get, nextSequence records⟩, records)

/-- A context answers every look at it: true once it is cancelled. -/
abbrev Context := Nat → Bool

def background : Context := fun _ => false

def onDevice (f : δ → Option Error × δ) : LogM δ Unit := fun log =>
  match f log.device with
  | (none, d) => .ok () { log with device := d }
  | (some e, d) => .error e { log with device := d }

def appendFrom (ctx : Context) : Nat → List Entry → LogM δ Unit
  | _, [] => return
  | look, entry :: entries => do
    if ctx look then throw .context
    let log ← get
    onDevice (Device.append (encode ⟨log.nextSeq, entry⟩))
    modify fun log => { log with nextSeq := log.nextSeq + 1 }
    appendFrom ctx (look + 1) entries

/-- Stages one record for each entry. -/
def append (ctx : Context) (entries : List Entry) : LogM δ Unit := appendFrom ctx 0 entries

/-- The durability boundary. -/
def sync (ctx : Context) : LogM δ Unit := do
  if ctx 0 then throw .context
  onDevice Device.sync

/-! ## Images -/

/-- The records of consecutive entries, numbered from `first`. -/
def numbered (first : Nat) : List Entry → List Record
  | [] => []
  | entry :: entries => ⟨BitVec.ofNat 64 first, entry⟩ :: numbered (first + 1) entries

/-- The bytes of consecutive entries. -/
def image (first : Nat) (entries : List Entry) : List UInt8 := (numbered first entries).flatMap encode

@[simp] theorem image_nil (first : Nat) : image first [] = [] := rfl

theorem image_cons (first : Nat) (entry : Entry) (entries : List Entry) :
    image first (entry :: entries) =
      encode ⟨BitVec.ofNat 64 first, entry⟩ ++ image (first + 1) entries :=
  List.flatMap_cons

@[simp] theorem length_numbered (first : Nat) (entries : List Entry) :
    (numbered first entries).length = entries.length := by
  induction entries generalizing first with
  | nil => rfl
  | cons entry entries ih => rw [numbered, List.length_cons, ih, List.length_cons]

@[simp] theorem length_image (first : Nat) (entries : List Entry) :
    (image first entries).length = entries.length * recordSize := by
  induction entries generalizing first with
  | nil => simp
  | cons entry entries ih =>
    rw [image_cons, List.length_append, length_encode, ih, List.length_cons, Nat.succ_mul,
      Nat.add_comm]

theorem numbered_append (first : Nat) (front back : List Entry) :
    numbered first (front ++ back) =
      numbered first front ++ numbered (first + front.length) back := by
  induction front generalizing first with
  | nil => rfl
  | cons entry front ih =>
    rw [List.cons_append, numbered, ih, numbered, List.cons_append, List.length_cons,
      show first + 1 + front.length = first + (front.length + 1) by omega]

theorem image_append (first : Nat) (front back : List Entry) :
    image first (front ++ back) = image first front ++ image (first + front.length) back := by
  unfold image
  rw [numbered_append, List.flatMap_append]

theorem nextSequence_numbered (entries : List Entry) :
    nextSequence (numbered 1 entries) = BitVec.ofNat 64 (entries.length + 1) := by
  rcases List.eq_nil_or_concat entries with rfl | ⟨front, entry, rfl⟩
  · rfl
  · unfold nextSequence
    rw [List.concat_eq_append, numbered_append]
    simp [numbered, BitVec.ofNat_add, BitVec.add_comm]

/-- A complete record at its place in the image. -/
theorem recoverRecord_append {front back : List UInt8} {i : Nat} (entry : Entry)
    (hfront : front.length = i * recordSize) :
    recoverRecord (front ++ (encode ⟨BitVec.ofNat 64 (i + 1), entry⟩ ++ back)) i =
      .ok ⟨BitVec.ofNat 64 (i + 1), entry⟩ := by
  have hslice : slice (front ++ (encode ⟨BitVec.ofNat 64 (i + 1), entry⟩ ++ back))
      (i * recordSize) ((i + 1) * recordSize) = encode ⟨BitVec.ofNat 64 (i + 1), entry⟩ := by
    rw [Bytes.slice_right (by omega), hfront, Nat.sub_self, Nat.succ_mul, Nat.add_sub_cancel_left,
      Bytes.slice_left (by simp), Bytes.slice_all (by simp)]
  unfold recoverRecord
  rw [hslice, decode_encode]
  simp [bind, Except.bind, pure, Except.pure]

theorem recoverRecords_image {front back : List UInt8} {i : Nat} (entries : List Entry)
    (hfront : front.length = i * recordSize) :
    recoverRecords (front ++ (image (i + 1) entries ++ back)) i entries.length =
      .ok (numbered (i + 1) entries) := by
  induction entries generalizing front i with
  | nil => rfl
  | cons entry entries ih =>
    have hlen : (front ++ encode ⟨BitVec.ofNat 64 (i + 1), entry⟩).length =
        (i + 1) * recordSize := by
      rw [List.length_append, hfront, length_encode, Nat.succ_mul]
    have hrest := ih hlen
    rw [List.append_assoc, ← List.append_assoc (encode _), ← image_cons] at hrest
    rw [List.length_cons, recoverRecords, image_cons, List.append_assoc,
      recoverRecord_append entry hfront, ← List.append_assoc (encode _), ← image_cons, hrest]
    rfl

/-- Recovery finds the complete records in front of a torn tail. -/
theorem recover_image (entries : List Entry) {tail : List UInt8} (htail : tail.length < recordSize) :
    recover (image 1 entries ++ tail) =
      .ok (numbered 1 entries, entries.length * recordSize) := by
  have hcount : (image 1 entries ++ tail).length / recordSize = entries.length := by
    rw [List.length_append, length_image, Nat.mul_comm, Nat.mul_add_div (by decide),
      Nat.div_eq_of_lt htail, Nat.add_zero]
  have hrecords : recoverRecords ([] ++ (image (0 + 1) entries ++ tail)) 0 entries.length =
      .ok (numbered (0 + 1) entries) := recoverRecords_image entries (by simp)
  rw [List.nil_append, Nat.zero_add] at hrecords
  simp only [recover, hcount, hrecords]
  rfl

/-- Opening a device whose first image is well formed. -/
theorem openLog_ok {d : δ} {records : List Record} {validBytes : Nat}
    (hr : recover (Device.durableBytes d).1 = .ok (records, validBytes)) :
    openLog d =
      let again := Device.durableBytes (Device.durableBytes d).2
      if validBytes ≠ again.1.length then
        match call (Device.truncateDurable validBytes) again.2 with
        | .ok _ d' => .ok (⟨d', nextSequence records⟩, records) d'
        | .error e d' => .error e d'
      else .ok (⟨again.2, nextSequence records⟩, records) again.2 := by
  simp only [openLog, bind, EStateM.bind, modifyGet, MonadStateOf.modifyGet, EStateM.modifyGet, hr,
    getThe, get]
  split
  · simp only [EStateM.bind]
    split
    · rename_i hcall
      simp only [hcall]
      rfl
    · rename_i hcall
      simp only [hcall]
  · rfl

/-- Opening a memory device keeps its complete records and cuts the torn tail. -/
theorem openLog_memory (entries : List Entry) {tail pending : List UInt8}
    (htail : tail.length < recordSize) :
    openLog (⟨image 1 entries ++ tail, pending⟩ : MemoryDevice) =
      .ok (⟨⟨image 1 entries, pending⟩, BitVec.ofNat 64 (entries.length + 1)⟩, numbered 1 entries)
        ⟨image 1 entries, pending⟩ := by
  have hdurable : (image 1 entries ++ tail).take (entries.length * recordSize) =
      image 1 entries := by
    rw [← length_image 1 entries, List.take_left]
  rw [openLog_ok (recover_image entries htail), nextSequence_numbered]
  simp only [MemoryDevice.durableBytes_eq]
  split
  · have hcut : Device.truncateDurable (entries.length * recordSize : Nat)
        (⟨image 1 entries ++ tail, pending⟩ : MemoryDevice) =
          (none, ⟨image 1 entries, pending⟩) := by
      rw [MemoryDevice.truncateDurable_eq (by simp), hdurable]
    simp only [call, hcut]
  · rename_i hlen
    have hnil : tail = [] := by
      rw [List.length_append, length_image] at hlen
      exact List.eq_nil_of_length_eq_zero (by omega)
    rw [hnil, List.append_nil]

/-! ## Journals -/

/-- What a history does to a log. -/
inductive Action
  | append (ctx : Context) (entries : List Entry)
  | sync (ctx : Context)
  /-- A power loss, and the next `Open`. -/
  | crash (tornBytes : Int)

def Action.exec : Action → LogM MemoryDevice (List Record)
  | .append ctx entries => do Wal.append ctx entries; return []
  | .sync ctx => do Wal.sync ctx; return []
  | .crash tornBytes => fun log =>
    match log.device.crash tornBytes with
    | .error e => .error e log
    | .ok device =>
      match openLog device with
      | .ok (log', records) _ => .ok records log'
      | .error e device' => .error e { log with device := device' }

/-- All actions in turn, with their results. An action that fails is not the last. -/
def run {S : Type} (exec : Action → EStateM Error S (List Record)) :
    List Action → S → List (Except Error (List Record)) × S
  | [], s => ([], s)
  | action :: actions, s =>
    match exec action s with
    | .ok records s' => ((run exec actions s').1.cons (.ok records), (run exec actions s').2)
    | .error e s' => ((run exec actions s').1.cons (.error e), (run exec actions s').2)

/-- The entries that are durable, and those that a crash may lose. -/
structure Journal where
  durable : List Entry := []
  pending : List Entry := []

/-- The entries in front of the look that finds the context cancelled. -/
def staged (ctx : Context) : Nat → List Entry → List Entry
  | _, [] => []
  | look, entry :: entries =>
    if ctx look then [] else entry :: staged ctx (look + 1) entries

/-- What the actions do to a journal. After a crash the durable entries come back
with the pending ones that were completely written, numbered from one. -/
def Journal.exec : Action → EStateM Error Journal (List Record)
  | .append ctx entries => fun j =>
    let j' := { j with pending := j.pending ++ staged ctx 0 entries }
    if staged ctx 0 entries = entries then .ok [] j' else .error .context j'
  | .sync ctx => fun j =>
    if ctx 0 then .error .context j else .ok [] ⟨j.durable ++ j.pending, []⟩
  | .crash tornBytes => fun j =>
    if tornBytes < 0 ∨ tornBytes > j.pending.length * recordSize then .error .invalidTear j
    else
      let survivors := j.durable ++ j.pending.take (tornBytes.toNat / recordSize)
      .ok (numbered 1 survivors) ⟨survivors, []⟩

/-- The log holds exactly the bytes of the journal, and numbers on behind them. -/
structure Represents (log : Log MemoryDevice) (j : Journal) : Prop where
  durable : log.device.durable = image 1 j.durable
  pending : log.device.pending = image (j.durable.length + 1) j.pending
  nextSeq : log.nextSeq = BitVec.ofNat 64 (j.durable.length + j.pending.length + 1)

section Steps

variable {log : Log MemoryDevice} {j : Journal}

theorem Represents.stage (hr : Represents log j) (entry : Entry) :
    Represents ⟨{ log.device with
        pending := log.device.pending ++ encode ⟨log.nextSeq, entry⟩ }, log.nextSeq + 1⟩
      { j with pending := j.pending ++ [entry] } where
  durable := hr.durable
  pending := by
    rw [image_append, image_cons, image_nil, List.append_nil, ← hr.pending, hr.nextSeq,
      show j.durable.length + 1 + j.pending.length = j.durable.length + j.pending.length + 1 by omega]
  nextSeq := by
    show log.nextSeq + 1 = _
    rw [hr.nextSeq, List.length_append, List.length_singleton,
      show j.durable.length + (j.pending.length + 1) + 1 =
        j.durable.length + j.pending.length + 1 + 1 by omega, BitVec.ofNat_add (_ + 1)]
    rfl

theorem Represents.appendFrom (hr : Represents log j) (ctx : Context) (look : Nat)
    (entries : List Entry) :
    ∃ log', Represents log' { j with pending := j.pending ++ staged ctx look entries } ∧
      Wal.appendFrom ctx look entries log =
        if staged ctx look entries = entries then .ok () log' else .error .context log' := by
  induction entries generalizing log j look with
  | nil => exact ⟨log, by simpa [staged] using hr, rfl⟩
  | cons entry entries ih =>
    by_cases hctx : ctx look
    · refine ⟨log, by simpa [staged, hctx] using hr, ?_⟩
      simp [Wal.appendFrom, staged, hctx]
      rfl
    · obtain ⟨log', hlog', hrun⟩ := ih (hr.stage entry) (look + 1)
      refine ⟨log', by simpa [staged, hctx] using hlog', ?_⟩
      have hrun' : Wal.appendFrom ctx look (entry :: entries) log =
          Wal.appendFrom ctx (look + 1) entries ⟨{ log.device with
            pending := log.device.pending ++ encode ⟨log.nextSeq, entry⟩ }, log.nextSeq + 1⟩ := by
        rw [Wal.appendFrom, if_neg hctx]
        rfl
      rw [hrun', hrun]
      simp [staged, hctx]

theorem Represents.sync (hr : Represents log j) :
    Represents { log with device := ⟨log.device.durable ++ log.device.pending, []⟩ }
      ⟨j.durable ++ j.pending, []⟩ where
  durable := by
    show log.device.durable ++ log.device.pending = _
    rw [hr.durable, hr.pending, image_append, Nat.add_comm 1]
  pending := rfl
  nextSeq := by
    show log.nextSeq = _
    rw [hr.nextSeq, List.length_append, List.length_nil, Nat.add_zero]

/-- The complete records among the bytes that a crash let through. -/
theorem take_image (first torn : Nat) (entries : List Entry) :
    ∃ tail : List UInt8, tail.length < recordSize ∧
      (image first entries).take torn = image first (entries.take (torn / recordSize)) ++ tail := by
  induction entries generalizing first torn with
  | nil => exact ⟨[], by decide, by simp⟩
  | cons entry entries ih =>
    rcases Nat.lt_or_ge torn recordSize with hlt | hge
    · refine ⟨(image first (entry :: entries)).take torn, ?_, ?_⟩
      · exact Nat.lt_of_le_of_lt (List.length_take_le _ _) hlt
      · rw [Nat.div_eq_of_lt hlt, List.take_zero, image_nil, List.nil_append]
    · obtain ⟨tail, htail, htake⟩ := ih (first + 1) (torn - recordSize)
      refine ⟨tail, htail, ?_⟩
      have hdiv : torn / recordSize = (torn - recordSize) / recordSize + 1 := by
        rw [← Nat.add_div_right _ (by decide : 0 < recordSize), Nat.sub_add_cancel hge]
      rw [hdiv, List.take_succ_cons, image_cons, image_cons, List.append_assoc, ← htake,
        List.take_append, length_encode, List.take_of_length_le (by simpa using hge)]

/-- A crash and the next `Open`. -/
theorem Represents.crash (hr : Represents log j) {torn : Int} (hlo : 0 ≤ torn)
    (hhi : torn ≤ j.pending.length * recordSize) :
    ∃ log', Action.exec (.crash torn) log =
        .ok (numbered 1 (j.durable ++ j.pending.take (torn.toNat / recordSize))) log' ∧
      Represents log' ⟨j.durable ++ j.pending.take (torn.toNat / recordSize), []⟩ := by
  obtain ⟨tail, htail, htake⟩ := take_image (j.durable.length + 1) torn.toNat j.pending
  have hcrash : log.device.crash torn =
      .ok ⟨image 1 (j.durable ++ j.pending.take (torn.toNat / recordSize)) ++ tail, []⟩ := by
    rw [MemoryDevice.crash_eq hlo (by rw [hr.pending, length_image]; exact_mod_cast hhi),
      hr.durable, hr.pending, htake, image_append, Nat.add_comm 1, List.append_assoc]
  refine ⟨⟨⟨image 1 (j.durable ++ j.pending.take (torn.toNat / recordSize)), []⟩,
    BitVec.ofNat 64 ((j.durable ++ j.pending.take (torn.toNat / recordSize)).length + 1)⟩, ?_,
    { durable := rfl, pending := rfl, nextSeq := rfl }⟩
  simp only [Action.exec, hcrash, openLog_memory _ htail]

/-- One action does to the log what it does to the journal, with the same result. -/
theorem Represents.exec (hr : Represents log j) (action : Action) :
    (∃ records log' j', action.exec log = .ok records log' ∧ Journal.exec action j = .ok records j' ∧
      Represents log' j') ∨
    ∃ e log' j', action.exec log = .error e log' ∧ Journal.exec action j = .error e j' ∧
      Represents log' j' := by
  cases action with
  | append ctx entries =>
    obtain ⟨log', hlog', hrun⟩ := hr.appendFrom ctx 0 entries
    by_cases hall : staged ctx 0 entries = entries
    · rw [if_pos hall] at hrun
      refine Or.inl ⟨[], log', _, ?_, if_pos hall, hlog'⟩
      simp only [Action.exec, Wal.append, bind, EStateM.bind, hrun]
      rfl
    · rw [if_neg hall] at hrun
      refine Or.inr ⟨.context, log', _, ?_, if_neg hall, hlog'⟩
      simp only [Action.exec, Wal.append, bind, EStateM.bind, hrun]
  | sync ctx =>
    by_cases hctx : ctx 0
    · refine Or.inr ⟨.context, log, j, ?_, if_pos hctx, hr⟩
      simp only [Action.exec, Wal.sync, hctx]
      rfl
    · refine Or.inl ⟨[], _, _, ?_, if_neg hctx, hr.sync⟩
      simp only [Action.exec, Wal.sync, hctx]
      rfl
  | crash torn =>
    by_cases hlegal : torn < 0 ∨ torn > j.pending.length * recordSize
    · refine Or.inr ⟨.invalidTear, log, j, ?_, if_pos hlegal, hr⟩
      have hcrash : log.device.crash torn = .error .invalidTear := by
        refine if_pos ?_
        rw [hr.pending, length_image]
        exact_mod_cast hlegal
      simp only [Action.exec, hcrash]
    · obtain ⟨log', hrun, hlog'⟩ := hr.crash (show 0 ≤ torn by omega) (by omega)
      exact Or.inl ⟨_, log', _, hrun, if_neg hlegal, hlog'⟩

theorem Represents.run (hr : Represents log j) (actions : List Action) :
    (Wal.run Action.exec actions log).1 = (Wal.run Journal.exec actions j).1 ∧
      Represents (Wal.run Action.exec actions log).2 (Wal.run Journal.exec actions j).2 := by
  induction actions generalizing log j with
  | nil => exact ⟨rfl, hr⟩
  | cons action actions ih =>
    rcases hr.exec action with ⟨records, log', j', hlog, hj, hr'⟩ | ⟨e, log', j', hlog, hj, hr'⟩
    · obtain ⟨hresults, hstate⟩ := ih hr'
      simp only [Wal.run, hlog, hj, hresults]
      exact ⟨trivial, hstate⟩
    · obtain ⟨hresults, hstate⟩ := ih hr'
      simp only [Wal.run, hlog, hj, hresults]
      exact ⟨trivial, hstate⟩

end Steps

/-- Whatever is appended, synced and lost, a log that was opened on an empty device
returns what the journal returns, and holds exactly the journal's bytes. -/
theorem crash_consistent (actions : List Action) :
    ∃ log : Log MemoryDevice, openLog ({} : MemoryDevice) = .ok (log, []) {} ∧
      (run Action.exec actions log).1 = (run Journal.exec actions {}).1 ∧
      Represents (run Action.exec actions log).2 (run Journal.exec actions {}).2 := by
  have hempty : Represents ⟨{}, 1⟩ {} := { durable := rfl, pending := rfl, nextSeq := rfl }
  exact ⟨⟨{}, 1⟩, rfl, hempty.run actions⟩

end Wal

end Promtact.Storage
