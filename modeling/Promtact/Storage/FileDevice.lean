import Promtact.Storage.Wal

/-!
# A log over a file

`FileDevice` is the device of a running server (`file_device.go`). Its
`DurableBytes` has no error result: when the sync or the read behind it fails, it
reports no bytes at all. `Open` asks twice, once to recover and once to decide
whether to truncate. A failure of the first call makes the log look empty, and
when the second call then succeeds, every record is cut off as if it were a torn
tail. `open_keeps_records_iff` says that this is the only way to lose a record.
-/

namespace Promtact.Storage.Wal

/-- How the two system calls of one `DurableBytes` end; true when they succeed. -/
structure Attempt where
  sync : Bool := true
  readFile : Bool := true
  deriving DecidableEq, Repr

/-- A file, and how each call of `DurableBytes` will end. -/
structure FileDevice where
  content : List UInt8
  attempts : Nat → Attempt
  reads : Nat := 0

namespace FileDevice

def durableBytes (d : FileDevice) : List UInt8 × FileDevice :=
  let d' := { d with reads := d.reads + 1 }
  if !(d.attempts d.reads).sync then ([], d')
  else if !(d.attempts d.reads).readFile then ([], d')
  else (d.content, d')

instance : Device FileDevice where
  append p d := (none, { d with content := d.content ++ p })
  sync d := (none, d)
  durableBytes := durableBytes
  truncateDurable size d :=
    if size < 0 then (some .invalidTear, d)
    else if size > d.content.length then (some .invalidTear, d)
    else (none, { d with content := d.content.take size.toNat })

theorem truncateDurable_eq {d : FileDevice} {size : Nat} (hs : size ≤ d.content.length) :
    Device.truncateDurable size d = (none, { d with content := d.content.take size }) := by
  show (if ((size : Int) < 0) then _ else _) = _
  rw [if_neg (by omega), if_neg (by omega), Int.toNat_natCast]

/-- The bytes that one call reports. -/
def seen (d : FileDevice) : List UInt8 :=
  if (d.attempts d.reads).sync && (d.attempts d.reads).readFile then d.content else []

theorem durableBytes_eq (d : FileDevice) :
    Device.durableBytes d = (d.seen, { d with reads := d.reads + 1 }) := by
  show durableBytes d = _
  unfold durableBytes seen
  cases (d.attempts d.reads).sync <;> cases (d.attempts d.reads).readFile <;> rfl

end FileDevice

/-- `Open` returns an error or all complete records, and the file still holds them
all afterwards. -/
def KeepsRecords (entries : List Entry) (d : FileDevice) : Prop :=
  match openLog d with
  | .ok (_, records) d' => records = numbered 1 entries ∧ image 1 entries <+: d'.content
  | .error _ d' => image 1 entries <+: d'.content

instance (entries : List Entry) (d : FileDevice) : Decidable (KeepsRecords entries d) := by
  unfold KeepsRecords
  split <;> infer_instance

/-- A file of complete records with a torn tail. -/
def tornFile (entries : List Entry) (tail : List UInt8) (attempts : Nat → Attempt) : FileDevice :=
  { content := image 1 entries ++ tail, attempts := attempts }

/-- `Open` returns the records of the first image and cuts the file, if at all,
behind them. -/
theorem openLog_file {d : FileDevice} {records : List Record} {validBytes : Nat}
    (hr : recover d.seen = .ok (records, validBytes)) (hv : validBytes ≤ d.content.length) :
    ∃ log d', openLog d = .ok (log, records) d' ∧
      (d'.content = d.content ∨ d'.content = d.content.take validBytes) := by
  have hfirst : recover (Device.durableBytes d).1 = .ok (records, validBytes) := by
    rw [FileDevice.durableBytes_eq]
    exact hr
  rw [openLog_ok hfirst]
  simp only [FileDevice.durableBytes_eq]
  split
  · have hcut := FileDevice.truncateDurable_eq (d := { d with reads := d.reads + 1 + 1 }) hv
    simp only [call, hcut]
    exact ⟨_, _, rfl, Or.inr rfl⟩
  · exact ⟨_, _, rfl, Or.inl rfl⟩

/-- Opening keeps every record exactly when the first `DurableBytes` succeeds or
there is no record to lose. -/
theorem open_keeps_records_iff (entries : List Entry) (tail : List UInt8)
    (attempts : Nat → Attempt) (htail : tail.length < recordSize) :
    KeepsRecords entries (tornFile entries tail attempts) ↔
      (attempts 0).sync = true ∧ (attempts 0).readFile = true ∨ entries = [] := by
  by_cases hread : (attempts 0).sync = true ∧ (attempts 0).readFile = true
  · -- the first image is the whole file
    have hseen : (tornFile entries tail attempts).seen = image 1 entries ++ tail :=
      if_pos (by simpa [tornFile] using hread)
    obtain ⟨log, d', hopen, hcontent⟩ := openLog_file
      (by rw [hseen]; exact recover_image entries htail) (by simp [tornFile])
    refine iff_of_true ?_ (Or.inl hread)
    unfold KeepsRecords
    rw [hopen]
    refine ⟨rfl, ?_⟩
    rcases hcontent with hall | hcut
    · exact ⟨tail, hall.symm⟩
    · refine ⟨[], ?_⟩
      rw [hcut, List.append_nil, ← length_image 1 entries]
      exact List.take_left.symm
  · -- the log looks empty
    have hseen : (tornFile entries tail attempts).seen = [] := if_neg (by simpa [tornFile] using hread)
    have hempty : recover (tornFile entries tail attempts).seen = .ok ([], 0) := by
      rw [hseen]
      rfl
    obtain ⟨log, d', hopen, hcontent⟩ := openLog_file hempty (Nat.zero_le _)
    unfold KeepsRecords
    rw [hopen]
    simp only [hread, false_or]
    constructor
    · rintro ⟨hrecords, _⟩
      have hlen := length_numbered 1 entries
      rw [← hrecords] at hlen
      exact List.eq_nil_of_length_eq_zero hlen.symm
    · rintro rfl
      exact ⟨rfl, List.nil_prefix⟩

def voteAndEntry : List Entry := [{ term := 1, command := 2 }, { index := 1, term := 1 }]

theorem open_keeps_records_iff_reread :
    KeepsRecords voteAndEntry (tornFile voteAndEntry [0x48, 0x59] fun read => ⟨true, read = 0⟩) := by
  rw [open_keeps_records_iff voteAndEntry [0x48, 0x59] (fun read => ⟨true, read = 0⟩) (by decide)]
  exact Or.inl ⟨rfl, rfl⟩

/-- A failed sync and then a working one: `Open` reports success and an empty log,
and leaves an empty file. -/
theorem failed_sync_empties_the_file :
    (match openLog (tornFile voteAndEntry [] fun read => ⟨read ≠ 0, true⟩) with
      | .ok (_, records) d => decide (records = [] ∧ d.content = [])
      | .error _ _ => false) = true ∧
    ¬ KeepsRecords voteAndEntry (tornFile voteAndEntry [] fun read => ⟨read ≠ 0, true⟩) := by
  decide +kernel

end Promtact.Storage.Wal
