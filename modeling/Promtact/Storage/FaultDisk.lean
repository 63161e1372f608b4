import Promtact.Storage.Wal

/-!
# Injected disk faults

`faultdisk.Device` is a device whose crashes corrupt what was synced: a bit flips, a record
is written to the place of another, or the read returns the image before the last sync. The
draws of a crash come from a stream, and every stream is allowed.

A log that was written to such a device either comes back as a prefix of its records, or the
recovery fails: a changed byte shows in the checksum of its record, and a record in the
wrong place shows in its number. Both faults together do not cancel out, since what ends up
in the overwritten place is a copy of another record, with or without the changed byte.
-/

namespace Promtact.Storage.FaultDisk

open Bytes (slice)
open Wal (Log LogM recordSize encode decode numbered image recover recoverRecord recoverRecords)

/-! ## The device -/

def oneMillion : Nat := 1000000

/-- The seed is the stream that a device starts with. -/
structure Config where
  bitFlipPerMillion : Int := 0
  misdirectPerMillion : Int := 0
  phantomReadPerMillion : Int := 0

inductive FaultKind
  | bitFlip | misdirect | phantom
  deriving DecidableEq, Repr

structure Fault where
  kind : FaultKind
  source : Nat := 0
  target : Nat := 0
  offset : Nat := 0
  deriving DecidableEq, Repr

/-- A stream of draws below a positive bound. -/
class Stream (ρ : Type) where
  intn : Nat → ρ → Nat × ρ
  intn_lt : ∀ n rng, 0 < n → (intn n rng).1 < n

structure Device (ρ : Type) where
  config : Config
  rng : ρ
  durable : List UInt8 := []
  /-- `none` is the nil slice. -/
  previous : Option (List UInt8) := none
  pending : List UInt8 := []
  faults : List Fault := []

variable {ρ : Type}

def errRate : String := "faultdisk: probability outside 0..1000000"

def new (config : Config) (rng : ρ) : Except String (Device ρ) :=
  if [config.bitFlipPerMillion, config.misdirectPerMillion, config.phantomReadPerMillion].any
      fun rate => rate < 0 || rate > oneMillion then throw errRate
  else return { config := config, rng := rng }

/-- Appending nothing to the nil slice leaves it nil. -/
def keep (previous : Option (List UInt8)) (durable : List UInt8) : Option (List UInt8) :=
  if previous = none ∧ durable = [] then none else some durable

instance : Wal.Device (Device ρ) where
  append data d := (none, { d with pending := d.pending ++ data })
  sync d := (none, { d with
    previous := keep d.previous d.durable, durable := d.durable ++ d.pending, pending := [] })
  durableBytes d := (d.durable, d)
  truncateDurable size d :=
    if size < 0 ∨ size > d.durable.length then (some .device, d)
    else (none, { d with durable := d.durable.take size.toNat })

section Crash

variable [Stream ρ]

def draw (n : Nat) : StateM ρ Nat := fun rng => Stream.intn n rng

def hit (rate : Int) : StateM ρ Bool := do
  if rate = oneMillion then return true
  else if rate ≠ 0 then return (← draw oneMillion) < rate
  else return false

def flipBit (rate : Int) (bytes : List UInt8) : StateM ρ (List UInt8 × List Fault) := do
  if (← hit rate) ∧ bytes ≠ [] then
    let offset ← draw bytes.length
    let bit ← draw 8
    return (bytes.modify offset (· ^^^ (1 <<< UInt8.ofNat bit)),
      [{ kind := .bitFlip, offset := offset }])
  else return (bytes, [])

/-- The record at `source` in the place of the one at `target`. -/
def copyRecord (bytes : List UInt8) (source target : Nat) : List UInt8 :=
  bytes.take (target * recordSize) ++
    (slice bytes (source * recordSize) ((source + 1) * recordSize) ++
      bytes.drop ((target + 1) * recordSize))

def misdirect (rate : Int) (bytes : List UInt8) : StateM ρ (List UInt8 × List Fault) := do
  let records := bytes.length / recordSize
  if (← hit rate) ∧ records ≥ 2 then
    let source ← draw records
    let other ← draw (records - 1)
    let target := if other ≥ source then other + 1 else other
    return (copyRecord bytes source target,
      [{ kind := .misdirect, source := source, target := target }])
  else return (bytes, [])

def phantomRead (rate : Int) (previous : Option (List UInt8)) (bytes : List UInt8) :
    StateM ρ (List UInt8 × List Fault) := do
  if ← hit rate then
    match previous with
    | some previous => return (previous, [{ kind := .phantom }])
    | none => return (bytes, [])
  else return (bytes, [])

/-- The image after the crash, and the faults that made it. -/
def faulty (d : Device ρ) : StateM ρ (List UInt8 × List Fault) := do
  let (flipped, flips) ← flipBit d.config.bitFlipPerMillion d.durable
  let (moved, moves) ← misdirect d.config.misdirectPerMillion flipped
  let (read, stale) ← phantomRead d.config.phantomReadPerMillion d.previous moved
  return (read, flips ++ moves ++ stale)

/-- The rebooted device. Its stream starts again from the seed. -/
def Device.crash (seed : ρ) (d : Device ρ) : Except String (Device ρ) := do
  let (bytes, faults) := (faulty d d.rng).1
  let rebooted ← new d.config seed
  return { rebooted with durable := bytes, faults := faults }

/-! ## What a crash can do -/

theorem draw_lt {n : Nat} (hn : 0 < n) (rng : ρ) : ∃ x rng', draw n rng = (x, rng') ∧ x < n :=
  ⟨_, _, rfl, Stream.intn_lt n rng hn⟩

omit [Stream ρ] in
theorem bind_of_run {α β : Type} {f : StateM ρ α} {k : α → StateM ρ β} {rng rng' : ρ} {a : α}
    (h : f rng = (a, rng')) : (f >>= k) rng = k a rng' := by
  show k (f rng).1 (f rng).2 = _
  rw [h]

/-- Nothing happened, or one byte is another one. -/
inductive Flipped (bytes : List UInt8) : List UInt8 × List Fault → Prop
  | none : Flipped bytes (bytes, [])
  | byte {offset : Nat} {b b' : UInt8} (hb : bytes[offset]? = some b) (hne : b' ≠ b) :
    Flipped bytes (bytes.set offset b', [{ kind := .bitFlip, offset := offset }])

theorem flipBit_cases (rate : Int) (bytes : List UInt8) (rng : ρ) :
    Flipped bytes (flipBit rate bytes rng).1 := by
  obtain ⟨yes, rng₁, hhit⟩ : ∃ yes rng₁, hit rate rng = (yes, rng₁) := ⟨_, _, rfl⟩
  unfold flipBit
  rw [bind_of_run hhit]
  split
  · rename_i hyes
    obtain ⟨offset, rng₂, hdraw, hoffset⟩ := draw_lt (List.length_pos_iff.mpr hyes.2) rng₁
    obtain ⟨bit, rng₃, hdraw', hbit⟩ := draw_lt (show 0 < 8 by decide) rng₂
    rw [bind_of_run hdraw, bind_of_run hdraw', List.modify_eq_set_get _ hoffset]
    exact .byte (List.getElem?_eq_getElem hoffset) (Bytes.xor_bit_ne _ hbit)
  · exact .none

/-- Nothing happened, or a record is in the place of another one. -/
inductive Moved (bytes : List UInt8) : List UInt8 × List Fault → Prop
  | none : Moved bytes (bytes, [])
  | record {source target : Nat} (hsource : source < bytes.length / recordSize)
    (htarget : target < bytes.length / recordSize) (hne : source ≠ target) :
    Moved bytes (copyRecord bytes source target,
      [{ kind := .misdirect, source := source, target := target }])

theorem misdirect_cases (rate : Int) (bytes : List UInt8) (rng : ρ) :
    Moved bytes (misdirect rate bytes rng).1 := by
  obtain ⟨yes, rng₁, hhit⟩ : ∃ yes rng₁, hit rate rng = (yes, rng₁) := ⟨_, _, rfl⟩
  unfold misdirect
  dsimp only
  rw [bind_of_run hhit]
  split
  · rename_i hyes
    obtain ⟨source, rng₂, hdraw, hsource⟩ :=
      draw_lt (show 0 < bytes.length / recordSize by omega) rng₁
    obtain ⟨other, rng₃, hdraw', hother⟩ :=
      draw_lt (show 0 < bytes.length / recordSize - 1 by omega) rng₂
    rw [bind_of_run hdraw, bind_of_run hdraw']
    refine .record hsource ?_ ?_
    · split <;> omega
    · split <;> omega
  · exact .none

/-- Nothing happened, or the image is an older one. -/
inductive Stale (previous : Option (List UInt8)) (bytes : List UInt8) :
    List UInt8 × List Fault → Prop
  | none : Stale previous bytes (bytes, [])
  | phantom {old : List UInt8} (hold : previous = some old) :
    Stale previous bytes (old, [{ kind := .phantom }])

theorem phantomRead_cases (rate : Int) (previous : Option (List UInt8)) (bytes : List UInt8)
    (rng : ρ) : Stale previous bytes (phantomRead rate previous bytes rng).1 := by
  obtain ⟨yes, rng₁, hhit⟩ : ∃ yes rng₁, hit rate rng = (yes, rng₁) := ⟨_, _, rfl⟩
  unfold phantomRead
  rw [bind_of_run hhit]
  split
  · cases previous with
    | some old => exact .phantom rfl
    | none => exact .none
  · exact .none

/-- The three faults in turn. -/
theorem faulty_cases (d : Device ρ) (rng : ρ) : ∃ flipped flips moved moves stale,
    Flipped d.durable (flipped, flips) ∧ Moved flipped (moved, moves) ∧
      Stale d.previous moved ((faulty d rng).1.1, stale) ∧
      (faulty d rng).1.2 = flips ++ moves ++ stale := by
  refine ⟨_, _, _, _, _, flipBit_cases d.config.bitFlipPerMillion d.durable rng,
    misdirect_cases d.config.misdirectPerMillion _ _,
    phantomRead_cases d.config.phantomReadPerMillion d.previous _ _, rfl⟩

end Crash

/-! ## Damaged records -/

section Records

variable {bytes : List UInt8} {blocks : List (List UInt8)} {entries : List Entry}

/-- A block whose checksum is not the one of its body is refused. -/
theorem decode_parts {front back : List UInt8} (hf : front.length = 108) (hb : back.length = 4)
    (hne : Bytes.crc32c front ≠ Bytes.get back) : ∃ e, decode (front ++ back) = .error e := by
  have hfront : slice (front ++ back) 0 108 = front := by
    rw [Bytes.slice_left (Nat.le_of_eq hf.symm), Bytes.slice_all hf.symm]
  have hback : slice (front ++ back) 108 112 = back := by
    rw [Bytes.slice_right (Nat.le_of_eq hf), hf, Nat.sub_self, Bytes.slice_all hb.symm]
  unfold decode
  rw [hfront, hback]
  split
  · exact ⟨_, rfl⟩
  · exact ⟨_, rfl⟩

/-- A record with another byte is refused. -/
theorem decode_set {r : Wal.Record} {j : Nat} {b b' : UInt8} (hb : (encode r)[j]? = some b)
    (hne : b' ≠ b) : ∃ e, decode ((encode r).set j b') = .error e := by
  have hstored := Bytes.get_put_of_lt (Bytes.crc32c_lt (Wal.body r))
  unfold encode at hb ⊢
  rw [List.getElem?_append] at hb
  rw [List.set_append]
  split
  · -- the byte is one that is checked
    rename_i hj
    rw [if_pos hj] at hb
    refine decode_parts (by simp) (Bytes.length_put 4 _) ?_
    rw [hstored]
    exact Bytes.crc32c_set_ne hb hne
  · -- the byte is one of the checksum
    rename_i hj
    rw [if_neg hj] at hb
    refine decode_parts (Wal.length_body r) (by simp) fun heq => ?_
    have hlen : ((Bytes.put 4 (Bytes.crc32c (Wal.body r))).set
        (j - (Wal.body r).length) b').length = 4 := by simp
    have hput := Bytes.put_get hlen
    rw [← heq] at hput
    have hlt := (List.getElem?_eq_some_iff.mp hb).1
    have hbyte := congrArg (·[j - (Wal.body r).length]?) hput
    simp only [List.getElem?_set_self hlt, hb, Option.some.injEq] at hbyte
    exact hne hbyte.symm

theorem recoverRecords_error {start count i : Nat} {e : Wal.Error} (hi : i < count)
    (h : recoverRecord bytes (start + i) = .error e) :
    ∃ e, recoverRecords bytes start count = .error e := by
  induction count generalizing start i with
  | zero => cases hi
  | succ count ih =>
    rw [recoverRecords]
    cases hfirst : recoverRecord bytes start with
    | error e' => exact ⟨e', rfl⟩
    | ok record =>
      cases i with
      | zero =>
        rw [Nat.add_zero, hfirst] at h
        cases h
      | succ i =>
        obtain ⟨e', hrest⟩ := ih (Nat.lt_of_succ_lt_succ hi)
          (by rw [show start + 1 + i = start + (i + 1) by omega]; exact h)
        exact ⟨e', by rw [hrest]; rfl⟩

/-- One bad record is enough. -/
theorem recover_error {i : Nat} {e : Wal.Error} (hi : i < bytes.length / recordSize)
    (h : recoverRecord bytes i = .error e) : ∃ e, recover bytes = .error e := by
  obtain ⟨e', herror⟩ := recoverRecords_error hi (by rwa [Nat.zero_add])
  refine ⟨e', ?_⟩
  simp only [recover, herror]
  rfl

/-- A block is the record of the entry at `i`, or one with another byte. -/
inductive Copy (entries : List Entry) (i : Nat) : List UInt8 → Prop
  | intact {entry : Entry} (h : entries[i]? = some entry) :
    Copy entries i (encode ⟨BitVec.ofNat 64 (i + 1), entry⟩)
  | damaged {r : Wal.Record} {j : Nat} {b b' : UInt8} (hb : (encode r)[j]? = some b)
    (hne : b' ≠ b) : Copy entries i ((encode r).set j b')

theorem Copy.length {i : Nat} {block : List UInt8} (h : Copy entries i block) :
    block.length = recordSize := by
  cases h with
  | intact => exact Wal.length_encode _
  | damaged => rw [List.length_set, Wal.length_encode]

/-- A copy of another record is refused in its place. -/
theorem Copy.misplaced {i k : Nat} {block : List UInt8} (h : Copy entries i block) (hne : i ≠ k)
    (hsize : entries.length < 2 ^ 64) (hk : k < entries.length)
    (hblock : slice bytes (k * recordSize) ((k + 1) * recordSize) = block) :
    ∃ e, recoverRecord bytes k = .error e := by
  unfold recoverRecord
  rw [hblock]
  cases h with
  | intact hi =>
    have hlt := (List.getElem?_eq_some_iff.mp hi).1
    have hsequence : BitVec.ofNat 64 (i + 1) ≠ BitVec.ofNat 64 (k + 1) := by
      intro heq
      have := congrArg BitVec.toNat heq
      rw [BitVec.toNat_ofNat, BitVec.toNat_ofNat, Nat.mod_eq_of_lt (by omega),
        Nat.mod_eq_of_lt (by omega)] at this
      omega
    rw [Wal.decode_encode]
    refine ⟨.sequence, ?_⟩
    show (if BitVec.ofNat 64 (i + 1) ≠ BitVec.ofNat 64 (k + 1) then _ else _) = _
    rw [if_pos hsequence]
    rfl
  | damaged hb hne =>
    obtain ⟨e, herror⟩ := decode_set hb hne
    exact ⟨e, by rw [herror]; rfl⟩

/-- The image is made of copies, each in its place. -/
structure Blocks (entries : List Entry) (blocks : List (List UInt8)) : Prop where
  length : blocks.length = entries.length
  copy : ∀ i block, blocks[i]? = some block → Copy entries i block

theorem Blocks.size (h : Blocks entries blocks) : ∀ block ∈ blocks, block.length = recordSize := by
  intro block hblock
  obtain ⟨i, hi⟩ := List.mem_iff_getElem?.mp hblock
  exact (h.copy i block hi).length

theorem Blocks.records (h : Blocks entries blocks) :
    blocks.flatten.length / recordSize = entries.length := by
  rw [Bytes.length_flatten_blocks h.size, h.length, Nat.mul_div_cancel _ (by decide)]

theorem getElem?_numbered (first i : Nat) (entries : List Entry) :
    (numbered first entries)[i]? =
      entries[i]?.map fun entry => ⟨BitVec.ofNat 64 (first + i), entry⟩ := by
  induction entries generalizing first i with
  | nil => rfl
  | cons entry entries ih =>
    cases i with
    | zero => rfl
    | succ i =>
      rw [numbered, List.getElem?_cons_succ, List.getElem?_cons_succ, ih,
        show first + 1 + i = first + (i + 1) by omega]

theorem blocks_image (entries : List Entry) :
    Blocks entries ((numbered 1 entries).map encode) where
  length := by rw [List.length_map, Wal.length_numbered]
  copy i block hi := by
    rw [List.getElem?_map, getElem?_numbered, Nat.add_comm 1] at hi
    cases hentry : entries[i]? with
    | none => rw [hentry] at hi; cases hi
    | some entry =>
      rw [hentry] at hi
      cases hi
      exact .intact hentry

theorem image_eq_flatten (entries : List Entry) :
    image 1 entries = ((numbered 1 entries).map encode).flatten := rfl

/-- After a flip every block is a copy still, and one of them is refused. -/
theorem Flipped.copies {flips : List Fault} (h : Flipped (image 1 entries) (bytes, flips)) :
    ∃ blocks, bytes = blocks.flatten ∧ Blocks entries blocks ∧
      (flips = [] ∧ bytes = image 1 entries ∨
        (∃ offset, flips = [{ kind := .bitFlip, offset := offset }]) ∧
          ∃ i e, i < entries.length ∧ recoverRecord bytes i = .error e) := by
  have hblocks := blocks_image entries
  cases h with
  | none => exact ⟨_, image_eq_flatten entries, hblocks, Or.inl ⟨rfl, rfl⟩⟩
  | @byte offset b b' hb hne =>
    have hlt := (List.getElem?_eq_some_iff.mp hb).1
    rw [Wal.length_image] at hlt
    have hi : offset / recordSize < entries.length :=
      Nat.div_lt_of_lt_mul (by rwa [Nat.mul_comm])
    have hj : offset % recordSize < recordSize := Nat.mod_lt _ (by decide)
    have hoffset : offset / recordSize * recordSize + offset % recordSize = offset := by
      rw [Nat.mul_comm]
      exact Nat.div_add_mod offset recordSize
    obtain ⟨r, hr⟩ : ∃ r, (numbered 1 entries)[offset / recordSize]? = some r :=
      ⟨_, List.getElem?_eq_getElem (by rwa [Wal.length_numbered])⟩
    have hblock : ((numbered 1 entries).map encode)[offset / recordSize]? = some (encode r) := by
      rw [List.getElem?_map, hr]
      rfl
    -- the byte of the image is the one of its record
    have hbyte : (encode r)[offset % recordSize]? = some b := by
      have hslice := Bytes.slice_block hblocks.size hblock
      rw [← image_eq_flatten] at hslice
      rw [← hslice, slice, List.getElem?_take_of_lt (by rw [Nat.succ_mul]; omega),
        List.getElem?_drop, hoffset]
      exact hb
    have hset : (image 1 entries).set offset b' = (((numbered 1 entries).map encode).set
        (offset / recordSize) ((encode r).set (offset % recordSize) b')).flatten := by
      rw [image_eq_flatten, ← Bytes.set_block hblocks.size hblock hj, hoffset]
    have hflipped : Blocks entries (((numbered 1 entries).map encode).set
        (offset / recordSize) ((encode r).set (offset % recordSize) b')) := by
      refine ⟨by rw [List.length_set, hblocks.length], fun i block hblock' => ?_⟩
      rw [List.getElem?_set] at hblock'
      split at hblock'
      · split at hblock'
        · cases hblock'
          exact .damaged hbyte hne
        · cases hblock'
      · exact hblocks.copy i block hblock'
    refine ⟨_, hset, hflipped, Or.inr ⟨⟨offset, rfl⟩, offset / recordSize, ?_⟩⟩
    obtain ⟨e, herror⟩ := decode_set hbyte hne
    refine ⟨e, hi, ?_⟩
    unfold recoverRecord
    rw [hset, Bytes.slice_block hflipped.size (List.getElem?_set_self
      (by rw [hblocks.length]; exact hi)), herror]
    rfl

/-- A record in the wrong place is refused, whether it was damaged before or not. -/
theorem Moved.refused {moves : List Fault} {moved : List UInt8} (hblocks : Blocks entries blocks)
    (hsize : entries.length < 2 ^ 64) (h : Moved blocks.flatten (moved, moves))
    (hne : moves ≠ []) : ∃ e, recover moved = .error e := by
  cases h with
  | none => exact absurd rfl hne
  | @record source target hsource htarget hdiffer =>
    rw [hblocks.records] at hsource htarget
    obtain ⟨block, hblock⟩ : ∃ block, blocks[source]? = some block :=
      ⟨_, List.getElem?_eq_getElem (by rw [hblocks.length]; exact hsource)⟩
    have hcopy := hblocks.copy source block hblock
    have hmoved : copyRecord blocks.flatten source target = (blocks.set target block).flatten := by
      unfold copyRecord
      rw [Bytes.slice_block hblocks.size hblock,
        Bytes.overwrite_block hblocks.size (by rw [hblocks.length]; exact htarget)]
    have hsizes : ∀ block' ∈ blocks.set target block, block'.length = recordSize := by
      intro block' hmem
      rcases List.mem_or_eq_of_mem_set hmem with hold | hnew
      · exact hblocks.size block' hold
      · rw [hnew]
        exact hcopy.length
    have hslice := Bytes.slice_block hsizes
      (List.getElem?_set_self (by rw [hblocks.length]; exact htarget))
    rw [← hmoved] at hslice
    obtain ⟨e, herror⟩ := hcopy.misplaced hdiffer hsize htarget hslice
    refine recover_error ?_ herror
    rw [hmoved, Bytes.length_flatten_blocks hsizes, List.length_set, hblocks.length,
      Nat.mul_div_cancel _ (by decide)]
    exact htarget

end Records

/-! ## A log on the device -/

/-- What is done to the log before the crash. -/
inductive Call
  | append (entries : List Entry)
  | sync

def Call.exec : Call → LogM (Device ρ) Unit
  | .append entries => Wal.append Wal.background entries
  | .sync => Wal.sync Wal.background

/-- The entries that were durable before the last sync, those that are durable, and those
that wait for one. -/
structure Written where
  before : List Entry := []
  durable : List Entry := []
  pending : List Entry := []

def Written.take (w : Written) : Call → Written
  | .append entries => { w with pending := w.pending ++ entries }
  | .sync => { before := w.durable, durable := w.durable ++ w.pending }

def written (calls : List Call) : Written := calls.foldl Written.take {}

/-- The log holds the bytes of what was written, and the device keeps the last image. -/
structure Holds (d₀ : Device ρ) (log : Log (Device ρ)) (w : Written) : Prop where
  represents : Wal.Represents ⟨⟨log.device.durable, log.device.pending⟩, log.nextSeq⟩
    ⟨w.durable, w.pending⟩
  previous : ∀ old, log.device.previous = some old → old = image 1 w.before
  front : w.before <+: w.durable
  same : log.device.config = d₀.config ∧ log.device.rng = d₀.rng

section Calls

variable {d₀ : Device ρ} {log : Log (Device ρ)} {w : Written}

theorem Holds.append (h : Holds d₀ log w) (look : Nat) (entries : List Entry) :
    ∃ log', Wal.appendFrom Wal.background look entries log = .ok () log' ∧
      Holds d₀ log' { w with pending := w.pending ++ entries } := by
  induction entries generalizing log w look with
  | nil => exact ⟨log, rfl, by simpa using h⟩
  | cons entry entries ih =>
    have hstage : Holds d₀ ⟨{ log.device with
        pending := log.device.pending ++ encode ⟨log.nextSeq, entry⟩ }, log.nextSeq + 1⟩
        { w with pending := w.pending ++ [entry] } :=
      { h with represents := h.represents.stage entry }
    obtain ⟨log', hrun, hholds⟩ := ih hstage (look + 1)
    refine ⟨log', hrun, ?_⟩
    simpa using hholds

theorem Holds.call (h : Holds d₀ log w) (call : Call) :
    ∃ log', call.exec log = .ok () log' ∧ Holds d₀ log' (w.take call) := by
  cases call with
  | append entries => exact h.append 0 entries
  | sync =>
    refine ⟨_, rfl, {
      represents := h.represents.sync
      previous := fun old hold => ?_
      front := List.prefix_append _ _
      same := h.same }⟩
    replace hold : keep log.device.previous log.device.durable = some old := hold
    unfold keep at hold
    split at hold
    · cases hold
    · cases hold
      exact h.represents.durable

theorem Holds.calls (h : Holds d₀ log w) (calls : List Call) :
    ∃ log', calls.forM Call.exec log = .ok () log' ∧ Holds d₀ log' (calls.foldl Written.take w) := by
  induction calls generalizing log w with
  | nil => exact ⟨log, rfl, h⟩
  | cons call calls ih =>
    obtain ⟨log₁, hcall, hholds⟩ := h.call call
    obtain ⟨log', hrun, hholds'⟩ := ih hholds
    refine ⟨log', ?_, hholds'⟩
    show EStateM.bind call.exec (fun _ => calls.forM Call.exec) log = _
    rw [EStateM.bind, hcall]
    exact hrun

/-- An image without a torn tail is recovered completely. -/
theorem recover_whole (entries : List Entry) :
    recover (image 1 entries) = .ok (numbered 1 entries, entries.length * recordSize) := by
  have hnil : ([] : List UInt8).length < recordSize := by decide
  have hrecover := Wal.recover_image entries hnil
  rwa [List.append_nil] at hrecover

/-- A new device is opened as an empty log. -/
theorem open_new {config : Config} {rng : ρ} (hnew : new config rng = .ok d₀) :
    Wal.openLog d₀ = .ok (⟨d₀, 1⟩, []) d₀ ∧ Holds d₀ ⟨d₀, 1⟩ {} ∧ d₀.config = config := by
  unfold new at hnew
  split at hnew
  · cases hnew
  · cases hnew
    refine ⟨?_, ?_, rfl⟩
    · have hrecover : recover (Wal.Device.durableBytes ({ config := config, rng := rng } :
          Device ρ)).1 = .ok ([], 0) := by
        refine (recover_whole []).trans ?_
        rw [List.length_nil, Nat.zero_mul]
        rfl
      rw [Wal.openLog_ok hrecover]
      rfl
    exact {
      represents := ⟨rfl, rfl, rfl⟩
      previous := fun old hold => by cases hold
      front := List.prefix_rfl
      same := ⟨rfl, rfl⟩ }

end Calls

/-! ## Recovery after the crash -/

/-- What recovery makes of the faults, in any combination. -/
theorem recover_faulty {previous : Option (List UInt8)} {before entries : List Entry}
    {flipped moved bytes : List UInt8} {flips moves stale : List Fault}
    (hsize : entries.length < 2 ^ 64)
    (hprevious : ∀ old, previous = some old → old = image 1 before)
    (hflip : Flipped (image 1 entries) (flipped, flips)) (hmove : Moved flipped (moved, moves))
    (hstale : Stale previous moved (bytes, stale)) :
    if FaultKind.phantom ∈ (flips ++ moves ++ stale).map Fault.kind then
      recover bytes = .ok (numbered 1 before, before.length * recordSize)
    else if flips ++ moves ++ stale = [] then
      recover bytes = .ok (numbered 1 entries, entries.length * recordSize)
    else ∃ e, recover bytes = .error e := by
  obtain ⟨blocks, rfl, hblocks, hflips⟩ := hflip.copies
  cases hstale with
  | phantom hold =>
    rw [if_pos (by simp), hprevious _ hold]
    exact recover_whole before
  | none =>
    have hkinds : FaultKind.phantom ∉ (flips ++ moves ++ []).map Fault.kind := by
      rcases hflips with ⟨rfl, _⟩ | ⟨⟨offset, rfl⟩, _⟩ <;> cases hmove <;> simp
    rw [if_neg hkinds]
    split
    · rename_i hnone
      simp only [List.append_nil, List.append_eq_nil_iff] at hnone
      obtain ⟨rfl, rfl⟩ := hnone
      have himage : blocks.flatten = image 1 entries := by
        rcases hflips with ⟨_, himage⟩ | ⟨⟨_, hflips⟩, _⟩
        · exact himage
        · cases hflips
      cases hmove
      rw [himage]
      exact recover_whole entries
    · rename_i hsome
      by_cases hmoves : moves = []
      · subst hmoves
        rcases hflips with ⟨rfl, _⟩ | ⟨_, i, e, hi, herror⟩
        · exact absurd rfl hsome
        · cases hmove
          exact recover_error (by rw [hblocks.records]; exact hi) herror
      · exact hmove.refused hblocks hsize hmoves

variable [Stream ρ]

/-- A log on a new device is opened, written and synced. After the crash it comes back as
what was durable before the last sync when the read was stale, completely when nothing was
injected, and not at all otherwise. -/
theorem corruption_is_detected {config : Config} {rng : ρ} {d₀ : Device ρ}
    (hnew : new config rng = .ok d₀) (calls : List Call) (seed : ρ)
    (hsize : (written calls).durable.length < 2 ^ 64) :
    ∃ log rebooted, Wal.openLog d₀ = .ok (⟨d₀, 1⟩, []) d₀ ∧
      calls.forM Call.exec ⟨d₀, 1⟩ = .ok () log ∧ log.device.crash seed = .ok rebooted ∧
      (written calls).before <+: (written calls).durable ∧
      if FaultKind.phantom ∈ rebooted.faults.map Fault.kind then
        recover rebooted.durable = .ok (numbered 1 (written calls).before,
          (written calls).before.length * recordSize)
      else if rebooted.faults = [] then
        recover rebooted.durable = .ok (numbered 1 (written calls).durable,
          (written calls).durable.length * recordSize)
      else ∃ e, recover rebooted.durable = .error e := by
  obtain ⟨hopen, hholds, hconfig⟩ := open_new hnew
  obtain ⟨log, hrun, hholds⟩ := hholds.calls calls
  replace hholds : Holds d₀ log (written calls) := hholds
  obtain ⟨flipped, flips, moved, moves, stale, hflip, hmove, hstale, hfaults⟩ :=
    faulty_cases log.device log.device.rng
  have hcrash : log.device.crash seed = .ok {
      config := config
      rng := seed
      durable := (faulty log.device log.device.rng).1.1
      faults := (faulty log.device log.device.rng).1.2 } := by
    unfold new at hnew
    unfold Device.crash new
    rw [hholds.same.1, hconfig]
    split at hnew
    · cases hnew
    · rename_i hrates
      rw [if_neg hrates]
      rfl
  refine ⟨log, _, hopen, hrun, hcrash, hholds.front, ?_⟩
  have hdurable : log.device.durable = image 1 (written calls).durable := hholds.represents.durable
  rw [hdurable] at hflip
  dsimp only
  rw [hfaults]
  exact recover_faulty hsize hholds.previous hflip hmove hstale

/-- A stream of given draws. -/
instance : Stream (List Nat) where
  intn n
    | [] => (0, [])
    | x :: draws => (x % n, draws)
  intn_lt n draws hn := by
    cases draws with
    | nil => exact hn
    | cons x draws => exact Nat.mod_lt x hn

/-- A device that always flips a bit and always misdirects a write, with its draws. -/
def unsound : Device (List Nat) where
  config := { bitFlipPerMillion := 1000000, misdirectPerMillion := 1000000 }
  rng := [120, 3, 0, 0]

def twoRecords : List Call := [.append [{ index := 1 }, { index := 2 }], .sync]

/-- The faults that a crash behind the calls records. -/
def faultsAfter (d : Device ρ) (seed : ρ) (calls : List Call) : List FaultKind :=
  match calls.forM Call.exec ⟨d, 1⟩ with
  | .ok _ log =>
    match log.device.crash seed with
    | .ok rebooted => rebooted.faults.map Fault.kind
    | .error _ => []
  | .error _ _ => []

/-- A bit of the second record flips, and the first record is written over it. -/
theorem corruption_is_detected_unsound : ∃ log rebooted,
    twoRecords.forM Call.exec ⟨unsound, 1⟩ = .ok () log ∧ log.device.crash [] = .ok rebooted ∧
    rebooted.faults.map Fault.kind = [.bitFlip, .misdirect] ∧
    ∃ e, recover rebooted.durable = .error e := by
  have hnew : new unsound.config unsound.rng = .ok unsound := rfl
  obtain ⟨log, rebooted, -, hrun, hcrash, -, hrecover⟩ :=
    corruption_is_detected hnew twoRecords [] (by decide)
  have hkinds : faultsAfter unsound [] twoRecords = [.bitFlip, .misdirect] := by decide +kernel
  unfold faultsAfter at hkinds
  simp only [hrun, hcrash] at hkinds
  rw [if_neg (by rw [hkinds]; decide), if_neg (by rintro hnil; rw [hnil] at hkinds; cases hkinds)]
    at hrecover
  exact ⟨log, rebooted, hrun, hcrash, hkinds, hrecover⟩

end Promtact.Storage.FaultDisk
