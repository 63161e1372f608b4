import Promtact.Storage.Wal

/-!
# The device over io_uring

`uringwal.Device` keeps each record of the log in a block of its own, padded with zeros. It has
three views of the log: the file, the durable bytes that it has cached, and the bytes that are
pending. `Stores` says which records a device holds and that the three views agree on them.
Every operation keeps it, and with it the device is a `MemoryDevice` (`device_is_memory`).

The writer is taken to do what its interface says: `appendDurable` writes the padded payload at
its block, or fails. A failed call may leave anything behind in the file.
-/

namespace Promtact.Storage.UringWal

open Bytes (slice zeros)
open Wal (recordSize MemoryDevice)

/-! ## The device -/

def blockSize : Nat := 4096

inductive Error
  | unaligned (length : Nat)
  | boundary
  | torn (size : Nat)
  | padding (index : Nat)
  | payload (size : Nat)
  | ring (text : String)
  deriving DecidableEq, Repr

def Error.text : Error → String
  | .unaligned length => "uringwal: pending length " ++ toString length ++ " is not record-aligned"
  | .boundary => "uringwal: invalid truncate boundary"
  | .torn size => "uringwal: physical file has torn block size " ++ toString size
  | .padding index => "uringwal: non-zero padding in block " ++ toString index
  | .payload size => "uring: payload " ++ toString size ++ " exceeds block size " ++ toString blockSize
  | .ring text => text

structure Device where
  file : List UInt8
  durable : List UInt8
  pending : List UInt8 := []

/-- A write at an offset; a gap before it reads as zeros. -/
def writeAt (file : List UInt8) (offset : Nat) (data : List UInt8) : List UInt8 :=
  (file ++ zeros (offset - file.length)).take offset ++ (data ++ file.drop (offset + data.length))

/-- The buffer that is written for a payload. -/
def pad (payload : List UInt8) : List UInt8 := payload ++ zeros (blockSize - payload.length)

/-- How a write ends: it succeeds, or the ring fails and leaves some file behind. -/
abbrev Outcome := Option (String × (List UInt8 → List UInt8))

def appendDurable (outcome : Outcome) (block : Nat) (payload file : List UInt8) :
    Option Error × List UInt8 :=
  if payload.length > blockSize then (some (.payload payload.length), file)
  else
    match outcome with
    | some (text, damage) => (some (.ring text), damage file)
    | none => (none, writeAt file (block * blockSize) (pad payload))

namespace Device

def append (data : List UInt8) (d : Device) : Device := { d with pending := d.pending ++ data }

def syncLoop (outcomes : Nat → Outcome) (d : Device) : Option Error × Device :=
  if d.pending = [] then (none, d)
  else
    let record := d.pending.take recordSize
    let block := d.durable.length / recordSize
    match appendDurable (outcomes 0) block record d.file with
    | (some err, file) => (some err, { d with file := file })
    | (none, file) => syncLoop (fun i => outcomes (i + 1))
        ⟨file, d.durable ++ record, d.pending.drop recordSize⟩
termination_by d.pending.length
decreasing_by
  have := List.length_pos_iff.mpr ‹d.pending ≠ []›
  simp only [List.length_drop, recordSize]
  omega

/-- One record after the other is written, up to the first error. -/
def sync (outcomes : Nat → Outcome) (d : Device) : Option Error × Device :=
  if d.pending.length % recordSize ≠ 0 then (some (.unaligned d.pending.length), d)
  else syncLoop outcomes d

def truncateDurable (logicalSize : Int) (d : Device) : Option Error × Device :=
  if logicalSize < 0 ∨ logicalSize > d.durable.length ∨ logicalSize % recordSize ≠ 0 then
    (some .boundary, d)
  else
    let physicalSize := logicalSize.toNat / recordSize * blockSize
    (none, { d with file := d.file.take physicalSize, durable := d.durable.take logicalSize.toNat })

end Device

def readBlocks (file : List UInt8) : Nat → Nat → Except Error (List UInt8)
  | _, 0 => .ok []
  | index, count + 1 =>
    let block := slice file (index * blockSize) ((index + 1) * blockSize)
    if block.drop recordSize ≠ zeros (blockSize - recordSize) then .error (.padding index)
    else
      match readBlocks file (index + 1) count with
      | .error err => .error err
      | .ok records => .ok (block.take recordSize ++ records)

/-- The records of an existing file. -/
def readRecords : Option (List UInt8) → Except Error (List UInt8)
  | none => .ok []
  | some file =>
    if file.length % blockSize ≠ 0 then .error (.torn file.length)
    else readBlocks file 0 (file.length / blockSize)

/-- A file that does not exist is created. -/
def openDevice (disk : Option (List UInt8)) : Except Error Device :=
  match readRecords disk with
  | .error err => .error err
  | .ok durable => .ok ⟨disk.getD [], durable, []⟩

/-! ## The records of a device -/

section Records

variable {records staged : List (List UInt8)} {d : Device} {record : List UInt8}

theorem length_pad (h : record.length = recordSize) : (pad record).length = blockSize := by
  simp [pad, h, recordSize, blockSize]

/-- Every record has its size. -/
def Sized (records : List (List UInt8)) : Prop := ∀ record ∈ records, record.length = recordSize

theorem Sized.append {more : List (List UInt8)} (h : Sized records) (hmore : Sized more) :
    Sized (records ++ more) :=
  List.forall_mem_append.mpr ⟨h, hmore⟩

/-- The blocks of the file. -/
def image (records : List (List UInt8)) : List UInt8 := (records.map pad).flatten

theorem Sized.pad (h : Sized records) : ∀ block ∈ records.map pad, block.length = blockSize := by
  intro block hblock
  obtain ⟨record, hrecord, rfl⟩ := List.mem_map.mp hblock
  exact length_pad (h record hrecord)

theorem Sized.length_image (h : Sized records) : (image records).length = records.length * blockSize := by
  rw [image, Bytes.length_flatten_blocks h.pad, List.length_map]

theorem Sized.length_flatten (h : Sized records) :
    records.flatten.length = records.length * recordSize := Bytes.length_flatten_blocks h

/-- The device holds the records, and `staged` are pending. -/
structure Stores (records staged : List (List UInt8)) (d : Device) : Prop where
  sized : Sized records
  staged_sized : Sized staged
  file : d.file = image records
  durable : d.durable = records.flatten
  pending : d.pending = staged.flatten

theorem writeAt_end (file data : List UInt8) : writeAt file file.length data = file ++ data := by
  simp [writeAt, zeros]

theorem Stores.appendDurable (h : Stores records (record :: staged) d) :
    appendDurable none (d.durable.length / recordSize) (d.pending.take recordSize) d.file =
      (none, image (records ++ [record])) := by
  have hrecord : record.length = recordSize := h.staged_sized record List.mem_cons_self
  have htake : d.pending.take recordSize = record := by
    rw [h.pending, List.flatten_cons, ← hrecord, List.take_left]
  have hblock : d.durable.length / recordSize = records.length := by
    rw [h.durable, h.sized.length_flatten, Nat.mul_div_cancel _ (by decide)]
  have hend : records.length * blockSize = (image records).length := h.sized.length_image.symm
  rw [htake, hblock, UringWal.appendDurable, if_neg (by rw [hrecord]; decide), h.file, hend, writeAt_end]
  simp [image]

/-- The device after a record has been written. -/
theorem Stores.next (h : Stores records (record :: staged) d) :
    Stores (records ++ [record]) staged ⟨image (records ++ [record]),
      d.durable ++ d.pending.take recordSize, d.pending.drop recordSize⟩ := by
  have hrecord : record.length = recordSize := h.staged_sized record List.mem_cons_self
  have hone : Sized [record] := fun r hr => List.mem_singleton.mp hr ▸ hrecord
  refine ⟨h.sized.append hone, fun r hr => h.staged_sized r (List.mem_cons_of_mem record hr), rfl, ?_, ?_⟩
  · rw [h.durable, h.pending, List.flatten_cons, ← hrecord, List.take_left, List.flatten_append]
    simp
  · rw [h.pending, List.flatten_cons, ← hrecord, List.drop_left]

theorem Stores.pending_ne_nil (h : Stores records (record :: staged) d) : d.pending ≠ [] := by
  intro hnil
  have hlength : d.pending.length = (staged.length + 1) * recordSize := by
    rw [h.pending, h.staged_sized.length_flatten, List.length_cons]
  rw [hnil, List.length_nil, recordSize] at hlength
  omega

/-- Without a failure everything pending becomes durable. -/
theorem Stores.syncLoop {outcomes : Nat → Outcome} (h : Stores records staged d)
    (hok : ∀ i < staged.length, outcomes i = none) :
    ∃ d', d.syncLoop outcomes = (none, d') ∧ Stores (records ++ staged) [] d' := by
  induction staged generalizing records d outcomes with
  | nil =>
    have hnil : d.pending = [] := h.pending
    refine ⟨d, ?_, by simpa using h⟩
    rw [Device.syncLoop, if_pos hnil]
  | cons record staged ih =>
    obtain ⟨d', hloop, hstores⟩ := @ih _ _ (fun i => outcomes (i + 1)) h.next
      fun i hi => hok (i + 1) (Nat.succ_lt_succ hi)
    refine ⟨d', ?_, by simpa using hstores⟩
    rw [Device.syncLoop, if_neg h.pending_ne_nil]
    simp only [hok 0 (Nat.succ_pos _), h.appendDurable]
    exact hloop

/-- At a failure the records before it are durable, and the others are pending as they were. -/
theorem Stores.syncLoop_fails {outcomes : Nat → Outcome} {k : Nat} {text : String}
    {damage : List UInt8 → List UInt8} (h : Stores records staged d) (hk : k < staged.length)
    (hok : ∀ i < k, outcomes i = none) (hfail : outcomes k = some (text, damage)) :
    d.syncLoop outcomes = (some (.ring text), ⟨damage (image (records ++ staged.take k)),
      (records ++ staged.take k).flatten, (staged.drop k).flatten⟩) := by
  induction staged generalizing records d outcomes k with
  | nil => cases hk
  | cons record staged ih =>
    rw [Device.syncLoop, if_neg h.pending_ne_nil]
    cases k with
    | zero =>
      have hrecord : record.length = recordSize := h.staged_sized record List.mem_cons_self
      have htake : d.pending.take recordSize = record := by
        rw [h.pending, List.flatten_cons, ← hrecord, List.take_left]
      simp only [hfail, htake, UringWal.appendDurable]
      rw [if_neg (by rw [hrecord]; decide)]
      simp [h.file, h.durable, h.pending]
    | succ k =>
      simp only [hok 0 (Nat.succ_pos k), h.appendDurable]
      have hloop := ih h.next (Nat.lt_of_succ_lt_succ hk)
        (fun i hi => hok (i + 1) (Nat.succ_lt_succ hi)) hfail
      simpa using hloop

theorem Stores.aligned (h : Stores records staged d) : d.pending.length % recordSize = 0 := by
  rw [h.pending, h.staged_sized.length_flatten, Nat.mul_mod_left]

theorem Stores.append {data : List UInt8} (h : Stores records staged d)
    (hdata : data.length % recordSize = 0) : ∃ more, data = more.flatten ∧
      Stores records (staged ++ more) (d.append data) := by
  obtain ⟨more, hmore, hflatten⟩ := Bytes.exists_blocks (show 0 < recordSize by decide) hdata
  refine ⟨more, hflatten, h.sized, h.staged_sized.append hmore, h.file, h.durable, ?_⟩
  show d.pending ++ data = (staged ++ more).flatten
  rw [h.pending, hflatten, List.flatten_append]

/-- A cut between two records. -/
theorem Stores.truncate {n : Nat} (h : Stores records staged d) (hn : n ≤ records.length) :
    d.truncateDurable (n * recordSize : Nat) = (none, ⟨image (records.take n),
      (records.take n).flatten, d.pending⟩) ∧
    Stores (records.take n) staged ⟨image (records.take n), (records.take n).flatten, d.pending⟩ := by
  have hlength : d.durable.length = records.length * recordSize := by
    rw [h.durable, h.sized.length_flatten]
  have hle : n * recordSize ≤ d.durable.length := hlength ▸ Nat.mul_le_mul_right recordSize hn
  have hfile : d.file.take (n * blockSize) = image (records.take n) := by
    rw [h.file, image, Bytes.take_flatten_blocks h.sized.pad, image, List.map_take]
  refine ⟨?_, fun r hr => h.sized r (List.mem_of_mem_take hr), h.staged_sized, rfl, rfl, h.pending⟩
  unfold Device.truncateDurable
  have hok : ¬ ((n * recordSize : Nat) < (0 : Int) ∨ (n * recordSize : Nat) > (d.durable.length : Int) ∨
      (n * recordSize : Nat) % (recordSize : Int) ≠ 0) := by
    rw [not_or, not_or]
    refine ⟨by omega, by omega, not_not.mpr ?_⟩
    rw [← Int.natCast_mod, Nat.mul_mod_left]
    rfl
  rw [if_neg hok]
  simp only [Int.toNat_natCast, Nat.mul_div_cancel _ (show 0 < recordSize by decide), hfile, h.durable,
    Bytes.take_flatten_blocks h.sized]

/-! ## Opening -/

theorem readBlocks_image (h : Sized records) (index count : Nat) (hcount : index + count = records.length) :
    readBlocks (image records) index count = .ok (records.drop index).flatten := by
  induction count generalizing index with
  | zero =>
    rw [readBlocks, List.drop_eq_nil_of_le (by omega)]
    rfl
  | succ count ih =>
    have hlt : index < records.length := by omega
    have hblock : slice (image records) (index * blockSize) ((index + 1) * blockSize) =
        pad records[index] := by
      refine Bytes.slice_block h.pad ?_
      rw [List.getElem?_map, List.getElem?_eq_getElem hlt]
      rfl
    have hsize : records[index].length = recordSize := h _ (List.getElem_mem hlt)
    have hrecord : (pad records[index]).take recordSize = records[index] := List.take_left' hsize
    have hzeros : (pad records[index]).drop recordSize = zeros (blockSize - recordSize) := by
      rw [pad, List.drop_left' hsize, hsize]
    rw [readBlocks]
    simp only [hblock, hrecord, hzeros, ne_eq, not_true_eq_false, if_false]
    rw [ih (index + 1) (by omega), List.drop_eq_getElem_cons hlt, List.flatten_cons]

/-- The records are read back from the file. -/
theorem Stores.readRecords (h : Stores records staged d) :
    readRecords (some d.file) = .ok d.durable := by
  have hblocks := readBlocks_image h.sized 0 records.length (Nat.zero_add _)
  unfold UringWal.readRecords
  simp only [h.file, h.sized.length_image, Nat.mul_mod_left, ne_eq, not_true_eq_false, if_false,
    Nat.mul_div_cancel _ (show 0 < blockSize by decide), hblocks, List.drop_zero, h.durable]

theorem Stores.reopen (h : Stores records staged d) :
    openDevice (some d.file) = .ok ⟨d.file, d.durable, []⟩ := by
  unfold openDevice
  rw [h.readRecords]
  rfl

theorem readBlocks_eq_ok {file out : List UInt8} {index count : Nat}
    (h : readBlocks file index count = .ok out) (hfit : (index + count) * blockSize ≤ file.length) :
    ∃ records, Sized records ∧ out = records.flatten ∧
      slice file (index * blockSize) ((index + count) * blockSize) = image records := by
  induction count generalizing index out with
  | zero =>
    cases h
    exact ⟨[], nofun, rfl, by simp [slice, image]⟩
  | succ count ih =>
    rw [readBlocks] at h
    split at h
    · cases h
    · rename_i hzeros
      split at h
      · cases h
      · rename_i rest hrest
        cases h
        have hfit' : (index + 1 + count) * blockSize ≤ file.length := by
          rw [Nat.add_assoc, Nat.add_comm 1 count]
          exact hfit
        obtain ⟨records, hsized, rfl, himage⟩ := ih hrest hfit'
        have hle : (index + 1) * blockSize ≤ (index + 1 + count) * blockSize :=
          Nat.mul_le_mul_right _ (Nat.le_add_right _ _)
        have hlength : (slice file (index * blockSize) ((index + 1) * blockSize)).length = blockSize := by
          rw [Bytes.length_slice (Nat.le_trans hle hfit'), Nat.succ_mul, Nat.add_sub_cancel_left]
        have hsize : ((slice file (index * blockSize) ((index + 1) * blockSize)).take
            recordSize).length = recordSize := by
          rw [List.length_take, hlength]
          decide
        refine ⟨_ :: records, List.forall_mem_cons.mpr ⟨hsize, hsized⟩, rfl, ?_⟩
        have hpad : pad ((slice file (index * blockSize) ((index + 1) * blockSize)).take recordSize) =
            slice file (index * blockSize) ((index + 1) * blockSize) := by
          rw [pad, hsize, ← not_not.mp hzeros, List.take_append_drop]
        have hsplit : (index + (count + 1)) * blockSize = (index + 1 + count) * blockSize := by
          rw [Nat.add_assoc, Nat.add_comm 1 count]
        rw [hsplit, ← Bytes.slice_append_slice (Nat.mul_le_mul_right _ (Nat.le_succ index)) hle, himage]
        simp [image, hpad]

/-- Any file that can be opened is one of records. -/
theorem stores_of_open {disk : Option (List UInt8)} (h : openDevice disk = .ok d) :
    ∃ records, Stores records [] d := by
  unfold openDevice at h
  cases disk with
  | none =>
    cases h
    exact ⟨[], nofun, nofun, rfl, rfl, rfl⟩
  | some file =>
    cases hread : readRecords (some file) with
    | error err => rw [hread] at h; cases h
    | ok durable =>
      rw [hread] at h
      cases h
      simp only [readRecords] at hread
      split at hread
      · cases hread
      · rename_i haligned
        have hsize : file.length / blockSize * blockSize = file.length :=
          Nat.div_mul_cancel (Nat.dvd_of_mod_eq_zero (not_not.mp haligned))
        have hfit : (0 + file.length / blockSize) * blockSize = file.length := by
          rw [Nat.zero_add, hsize]
        obtain ⟨records, hsized, rfl, himage⟩ := readBlocks_eq_ok hread (Nat.le_of_eq hfit)
        rw [hfit, Nat.zero_mul, Bytes.slice_all rfl] at himage
        exact ⟨records, hsized, nofun, himage, rfl, rfl⟩

end Records

/-! ## Sequences of operations -/

/-- What a caller does to a device. A sync may fail at one of its writes; then nothing is
written there. -/
inductive Op
  | append (data : List UInt8)
  | sync (failure : Option Nat)
  | truncate (size : Int)
  | reopen

/-- Records are appended whole, and cuts are between them. -/
def Op.Aligned : Op → Prop
  | .append data => data.length % recordSize = 0
  | .truncate size => size % recordSize = 0
  | _ => True

instance : DecidablePred Op.Aligned
  | .append data => inferInstanceAs (Decidable (data.length % recordSize = 0))
  | .truncate size => inferInstanceAs (Decidable (size % recordSize = 0))
  | .sync _ | .reopen => inferInstanceAs (Decidable True)

/-- The write with the number of the failure fails. -/
def failing (failure : Option Nat) (i : Nat) : Outcome :=
  if failure = some i then some ("write failed", id) else none

namespace Device

def exec (d : Device) : Op → Option Error × Device
  | .append data => (none, d.append data)
  | .sync failure => d.sync (failing failure)
  | .truncate size => d.truncateDurable size
  | .reopen =>
    match openDevice (some d.file) with
    | .error err => (some err, d)
    | .ok d' => (none, d')

def run (d : Device) (ops : List Op) : Device := ops.foldl (fun d op => (d.exec op).2) d

end Device

/-- The same operation on a memory device: a sync that fails at a write has synced the records
before it, and a reopened device has lost what was pending. The result says whether there was
an error. -/
def memoryExec (m : MemoryDevice) : Op → Bool × MemoryDevice
  | .append data => (false, (Wal.Device.append data m).2)
  | .sync failure =>
    match failure with
    | some k =>
      if k * recordSize < m.pending.length then
        (true, ⟨m.durable ++ m.pending.take (k * recordSize), m.pending.drop (k * recordSize)⟩)
      else (false, (Wal.Device.sync m).2)
    | none => (false, (Wal.Device.sync m).2)
  | .truncate size => ((Wal.Device.truncateDurable size m).1.isSome, (Wal.Device.truncateDurable size m).2)
  | .reopen =>
    match m.crash 0 with
    | .error _ => (true, m)
    | .ok m' => (false, m')

def memoryRun (m : MemoryDevice) (ops : List Op) : MemoryDevice :=
  ops.foldl (fun m op => (memoryExec m op).2) m

section Sequences

variable {records staged : List (List UInt8)} {d : Device} {m : MemoryDevice}

/-- The two devices hold the same records. -/
structure Same (d : Device) (m : MemoryDevice) : Prop where
  stores : ∃ records staged, Stores records staged d
  durable : m.durable = d.durable
  pending : m.pending = d.pending

/-- A sync in which every write succeeds. -/
theorem Same.sync_ok {outcomes : Nat → Outcome} (hstores : Stores records staged d)
    (hdurable : m.durable = d.durable) (hpending : m.pending = d.pending)
    (hok : ∀ i < staged.length, outcomes i = none) :
    (d.sync outcomes).1 = none ∧ Same (d.sync outcomes).2 ⟨m.durable ++ m.pending, []⟩ := by
  obtain ⟨d', hloop, hstores'⟩ := hstores.syncLoop hok
  have hsync : d.sync outcomes = (none, d') := by
    rw [Device.sync, if_neg (not_not.mpr hstores.aligned), hloop]
  rw [hsync]
  refine ⟨rfl, ⟨records ++ staged, [], hstores'⟩, ?_, hstores'.pending.symm⟩
  rw [hstores'.durable, List.flatten_append, hdurable, hpending, hstores.durable, hstores.pending]

theorem Same.sync (h : Same d m) (failure : Option Nat) :
    (d.exec (.sync failure)).1.isSome = (memoryExec m (.sync failure)).1 ∧
      Same (d.exec (.sync failure)).2 (memoryExec m (.sync failure)).2 := by
  obtain ⟨records, staged, hstores⟩ := h.stores
  have hlength : m.pending.length = staged.length * recordSize := by
    rw [h.pending, hstores.pending, hstores.staged_sized.length_flatten]
  cases failure with
  | none =>
    have hnone : ∀ i < staged.length, failing none i = none := fun i _ => if_neg nofun
    obtain ⟨hok, hsame⟩ := Same.sync_ok hstores h.durable h.pending hnone
    exact ⟨congrArg Option.isSome hok, hsame⟩
  | some k =>
    unfold memoryExec
    by_cases hk : k < staged.length
    · have hlt : k * recordSize < m.pending.length := hlength ▸ Nat.mul_lt_mul_of_pos_right hk (by decide)
      have hbefore : ∀ i < k, failing (some k) i = none :=
        fun i hi => if_neg fun heq => Nat.ne_of_gt hi (Option.some.inj heq)
      have hloop := hstores.syncLoop_fails hk hbefore (if_pos rfl)
      have hsync : d.exec (.sync (some k)) = d.syncLoop (failing (some k)) :=
        if_neg (not_not.mpr hstores.aligned)
      simp only [if_pos hlt, hsync, hloop]
      refine ⟨rfl, ⟨records ++ staged.take k, staged.drop k, ?_⟩, ?_, ?_⟩
      · exact ⟨hstores.sized.append fun r hr => hstores.staged_sized r (List.mem_of_mem_take hr),
          fun r hr => hstores.staged_sized r (List.mem_of_mem_drop hr), rfl, rfl, rfl⟩
      · rw [List.flatten_append, ← Bytes.take_flatten_blocks hstores.staged_sized, h.durable, h.pending,
          hstores.durable, hstores.pending]
      · rw [← Bytes.drop_flatten_blocks hstores.staged_sized, h.pending, hstores.pending]
    · have hge : ¬ k * recordSize < m.pending.length := by
        rw [hlength]
        exact Nat.not_lt.mpr (Nat.mul_le_mul_right _ (Nat.le_of_not_lt hk))
      have hnone : ∀ i < staged.length, failing (some k) i = none := by
        intro i hi
        refine if_neg fun heq => ?_
        cases heq
        exact hk hi
      obtain ⟨hok, hsame⟩ := Same.sync_ok hstores h.durable h.pending hnone
      simp only [if_neg hge]
      exact ⟨congrArg Option.isSome hok, hsame⟩

theorem Same.truncate (h : Same d m) {size : Int} (hsize : size % recordSize = 0) :
    (d.exec (.truncate size)).1.isSome = (memoryExec m (.truncate size)).1 ∧
      Same (d.exec (.truncate size)).2 (memoryExec m (.truncate size)).2 := by
  obtain ⟨records, staged, hstores⟩ := h.stores
  by_cases hrange : size < 0 ∨ size > d.durable.length
  · have hdevice : d.truncateDurable size = (some .boundary, d) := if_pos (by
      rcases hrange with hlo | hhi
      · exact .inl hlo
      · exact .inr (.inl hhi))
    have hmemory : Wal.Device.truncateDurable size m = (some .invalidTear, m) := if_pos (by
      rw [h.durable]
      exact hrange)
    simp only [Device.exec, memoryExec, hdevice, hmemory]
    exact ⟨rfl, h⟩
  · obtain ⟨hlo, hhi⟩ := not_or.mp hrange
    obtain ⟨bytes, rfl⟩ : ∃ bytes : Nat, size = bytes := ⟨size.toNat, by omega⟩
    have hdivides : bytes % recordSize = 0 := by
      have hcast : ((bytes % recordSize : Nat) : Int) = 0 := by
        rw [Int.natCast_mod]
        exact hsize
      exact_mod_cast hcast
    obtain ⟨n, rfl⟩ := Nat.dvd_of_mod_eq_zero hdivides
    rw [Nat.mul_comm recordSize n] at hhi ⊢
    have hlength : d.durable.length = records.length * recordSize := by
      rw [hstores.durable, hstores.sized.length_flatten]
    have hn : n ≤ records.length := by
      rw [hlength, recordSize] at hhi
      omega
    obtain ⟨hdevice, hstores'⟩ := hstores.truncate hn
    have hmemory : Wal.Device.truncateDurable (n * recordSize : Nat) m =
        (none, { m with durable := m.durable.take (n * recordSize) }) :=
      MemoryDevice.truncateDurable_eq (by rw [h.durable]; omega)
    simp only [Device.exec, memoryExec, hdevice, hmemory]
    refine ⟨rfl, ⟨_, _, hstores'⟩, ?_, h.pending⟩
    rw [h.durable, hstores.durable, Bytes.take_flatten_blocks hstores.sized]

theorem Same.exec (h : Same d m) {op : Op} (hop : op.Aligned) :
    ((d.exec op).1.isSome = (memoryExec m op).1) ∧ Same (d.exec op).2 (memoryExec m op).2 := by
  cases op with
  | append data =>
    obtain ⟨records, staged, hstores⟩ := h.stores
    obtain ⟨more, hmore, hstores⟩ := hstores.append hop
    exact ⟨rfl, ⟨records, staged ++ more, hstores⟩, h.durable, congrArg (· ++ data) h.pending⟩
  | sync failure => exact h.sync failure
  | truncate size => exact h.truncate hop
  | reopen =>
    obtain ⟨records, staged, hstores⟩ := h.stores
    have hcrash : m.crash 0 = .ok ⟨m.durable, []⟩ := by
      rw [MemoryDevice.crash_eq (Int.le_refl 0) (Int.natCast_nonneg _)]
      simp
    unfold Device.exec memoryExec
    rw [hstores.reopen, hcrash]
    exact ⟨rfl, ⟨records, [], hstores.sized, nofun, hstores.file, hstores.durable, rfl⟩, h.durable, rfl⟩

theorem Same.run (h : Same d m) {ops : List Op} (hops : ∀ op ∈ ops, op.Aligned) :
    Same (d.run ops) (memoryRun m ops) := by
  induction ops generalizing d m with
  | nil => exact h
  | cons op ops ih =>
    exact ih (h.exec (hops op List.mem_cons_self)).2 fun op' hop => hops op' (List.mem_cons_of_mem op hop)

/-- The device over io_uring is a memory device. From any file that can be opened, and after any
operations on whole records: it reports the bytes of the memory device, each operation fails
exactly when it fails there, the file has one block for each record, padded with zeros, and
opening the file again gives these bytes. And a sync that fails at its write number `k`,
whatever that leaves behind in the file, has made the records before it durable and leaves the
others pending in their order. -/
theorem device_is_memory (disk : Option (List UInt8)) (d : Device) (hopen : openDevice disk = .ok d)
    (ops : List Op) (hops : ∀ op ∈ ops, op.Aligned) :
    (d.run ops).durable = (memoryRun ⟨d.durable, []⟩ ops).durable ∧
    (∀ op : Op, op.Aligned → ((d.run ops).exec op).1.isSome =
      (memoryExec (memoryRun ⟨d.durable, []⟩ ops) op).1) ∧
    (∃ records : List (List UInt8), (∀ record ∈ records, record.length = recordSize) ∧
      (d.run ops).durable = records.flatten ∧
      (d.run ops).file =
        (records.map fun record => record ++ zeros (blockSize - recordSize)).flatten) ∧
    readRecords (some (d.run ops).file) = .ok (d.run ops).durable ∧
    ∀ (outcomes : Nat → Outcome) (k : Nat) (text : String) (damage : List UInt8 → List UInt8),
      k < (d.run ops).pending.length / recordSize → (∀ i < k, outcomes i = none) →
      outcomes k = some (text, damage) →
      ∃ file, (d.run ops).sync outcomes = (some (.ring text),
        ⟨damage file, (d.run ops).durable ++ (d.run ops).pending.take (k * recordSize),
          (d.run ops).pending.drop (k * recordSize)⟩) := by
  obtain ⟨records₀, hstores₀⟩ := stores_of_open hopen
  have hstart : Same d ⟨d.durable, []⟩ := ⟨⟨records₀, [], hstores₀⟩, rfl, hstores₀.pending.symm⟩
  have hsame := hstart.run hops
  obtain ⟨records, staged, hstores⟩ := hsame.stores
  refine ⟨hsame.durable.symm, fun op hop => (hsame.exec hop).1, ⟨records, hstores.sized, hstores.durable, ?_⟩,
    ?_, fun outcomes k text damage hk hok hfail => ?_⟩
  · rw [hstores.file, image]
    congr 1
    refine List.map_congr_left fun record hrecord => ?_
    rw [pad, hstores.sized record hrecord]
  · exact hstores.readRecords
  · have hcount : k < staged.length := by
      rw [hstores.pending, hstores.staged_sized.length_flatten, Nat.mul_div_cancel _ (by decide)] at hk
      exact hk
    refine ⟨image (records ++ staged.take k), ?_⟩
    rw [Device.sync, if_neg (not_not.mpr hstores.aligned), hstores.syncLoop_fails hcount hok hfail,
      List.flatten_append, ← Bytes.take_flatten_blocks hstores.staged_sized,
      ← Bytes.drop_flatten_blocks hstores.staged_sized, hstores.durable, hstores.pending]

/-- Two records of which one is written, a retry, a cut, another record in its place that is
lost, and a file that is opened again. -/
def retried : List Op :=
  [.append (List.replicate 224 7), .sync (some 1), .sync none, .truncate 112,
    .append (List.replicate 112 9), .sync none, .append (List.replicate 112 5), .reopen]

theorem device_is_memory_retried :
    ∃ d, openDevice none = .ok d ∧
      (d.run retried).durable = List.replicate 112 7 ++ List.replicate 112 9 ∧
      readRecords (some (d.run retried).file) = .ok (d.run retried).durable := by
  have hops : ∀ op ∈ retried, op.Aligned := by decide +kernel
  obtain ⟨hdurable, -, -, hread, -⟩ := device_is_memory none ⟨[], [], []⟩ rfl retried hops
  refine ⟨⟨[], [], []⟩, rfl, hdurable.trans ?_, hread⟩
  decide +kernel

end Sequences

end Promtact.Storage.UringWal
