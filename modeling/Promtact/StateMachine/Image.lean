import Promtact.StateMachine.Deduplication

/-!
# A snapshot and the entries behind it

`Machine.snapshot` and `Machine.restore` are functions of the maps. Here both are followed
as they run: `snapshotFrom` reads the maps in any order and sorts the keys, and
`restoreReads` panics when a slice or an index is out of range. Neither the order nor the
bounds ever show, so that the machine of a prefix, saved and restored, goes on with the
rest of the entries as if nothing had happened.
-/

namespace Promtact.StateMachine.Machine

open Promtact.Raft

/-! ## Writing -/

/-- The keys of a map in ascending order, whatever the order in which it was read. -/
def sorted (keys : List Word) : List Word := keys.mergeSort fun a b => a ≤ b

/-- The parts of an image in front of its checksum. -/
def imageOf (values : List (Word × Word)) (clients : List (Word × ClientRecord)) : List UInt8 :=
  magic ++ Bytes.put 2 1 ++ [0, 0] ++ Bytes.put 4 values.length ++ Bytes.put 4 clients.length ++
    values.flatMap putValue ++ clients.flatMap putClient

/-- `Snapshot`, with the order in which the loops over the maps meet the keys. A key that
is not in the map has the zero value. -/
def snapshotFrom (m : Machine) (keys clients : List Word) : List UInt8 :=
  let image := imageOf ((sorted keys).map fun key => (key, m.values[key]?.getD 0))
    ((sorted clients).map fun client => (client, m.clients[client]?.getD ⟨0, 0, false⟩))
  image ++ Bytes.put 4 (Bytes.crc32c image)

theorem sorted_pairwise (keys : List Word) : (sorted keys).Pairwise fun a b => a ≤ b := by
  have hsorted : (sorted keys).Pairwise fun a b => decide (a ≤ b) = true := by
    refine List.pairwise_mergeSort (fun a b c => ?_) (fun a b => ?_) keys
    · rw [decide_eq_true_eq, decide_eq_true_eq, decide_eq_true_eq]
      exact BitVec.le_trans
    · rw [Bool.or_eq_true, decide_eq_true_eq, decide_eq_true_eq]
      exact BitVec.le_total a b
  exact hsorted.imp of_decide_eq_true

/-- Sorting finds the order of the map. -/
theorem sorted_eq_keys {α : Type} {map : WordMap α} {keys : List Word} (h : keys.Perm map.keys) :
    sorted keys = map.keys := by
  have hlt : ∀ a b : Word, compare a b = .lt → a < b := fun a b h => compareOfLessAndEq_eq_lt.mp h
  have hkeys : map.keys.Pairwise fun a b => a ≤ b :=
    Std.ExtTreeMap.ordered_keys.imp fun {a b} h => BitVec.le_of_lt (hlt a b h)
  exact List.Perm.eq_of_pairwise (fun a b _ _ => BitVec.le_antisymm) (sorted_pairwise keys) hkeys
    ((List.mergeSort_perm _ _).trans h)

theorem map_keys_toList {α : Type} (map : WordMap α) (zero : α) :
    (map.keys.map fun key => (key, map[key]?.getD zero)) = map.toList := by
  rw [← Std.ExtTreeMap.map_fst_toList_eq_keys, List.map_map]
  refine (List.map_congr_left fun pair hpair => ?_).trans (List.map_id _)
  have hvalue : map[pair.1]? = some pair.2 := Std.ExtTreeMap.mem_toList_iff_getElem?_eq_some.mp hpair
  simp [hvalue]

/-- The bytes do not depend on the order of the maps. -/
theorem snapshotFrom_eq {m : Machine} {keys clients : List Word} (hk : keys.Perm m.values.keys)
    (hc : clients.Perm m.clients.keys) : m.snapshotFrom keys clients = m.snapshot := by
  unfold snapshotFrom
  rw [sorted_eq_keys hk, sorted_eq_keys hc, map_keys_toList, map_keys_toList]
  rfl

/-! ## Reading -/

/-- The bytes from `first` up to `last`; `none` when the slice is out of range. -/
def read (image : List UInt8) (first last : Nat) : Option (List UInt8) :=
  if first ≤ last ∧ last ≤ image.length then some (Bytes.slice image first last) else none

theorem read_eq {image : List UInt8} {first last : Nat} (hf : first ≤ last)
    (hl : last ≤ image.length) : read image first last = some (Bytes.slice image first last) :=
  if_pos ⟨hf, hl⟩

def readValues (image : List UInt8) : Nat → Nat → WordMap Word → Option (WordMap Word)
  | 0, _, values => some values
  | count + 1, offset, values => do
    let key ← read image offset (offset + 8)
    let value ← read image (offset + 8) (offset + 16)
    readValues image count (offset + 16) (values.insert (getWord key) (getWord value))

def readClients (image : List UInt8) :
    Nat → Nat → WordMap ClientRecord → Option (WordMap ClientRecord)
  | 0, _, clients => some clients
  | count + 1, offset, clients => do
    let client ← read image offset (offset + 8)
    let requestID ← read image (offset + 8) (offset + 16)
    let value ← read image (offset + 16) (offset + 24)
    let found ← image[offset + 24]?
    readClients image count (offset + 32)
      (clients.insert (getWord client) ⟨getWord requestID, getWord value, found = 1⟩)

/-- `Restore`; `none` when it panics, and a machine or `ErrBadSnapshot` otherwise. -/
def restoreReads (image : List UInt8) : Option (Option Machine) := do
  if image.length < 20 then return none
  if (← read image 0 4) ≠ magic then return none
  if Bytes.get (← read image 4 6) ≠ 1 then return none
  let expected ← read image (image.length - 4) image.length
  if Bytes.crc32c (← read image 0 (image.length - 4)) ≠ Bytes.get expected then return none
  let keyCount := Bytes.get (← read image 8 12)
  let clientCount := Bytes.get (← read image 12 16)
  if 20 + keyCount * 16 + clientCount * 32 ≠ image.length then return none
  let values ← readValues image keyCount 16 ∅
  let clients ← readClients image clientCount (16 + keyCount * 16) ∅
  return some { values := values, clients := clients }

theorem readValues_eq {image : List UInt8} {count offset : Nat} (values : WordMap Word)
    (h : offset + count * 16 ≤ image.length) :
    readValues image count offset values =
      some (values.insertMany (getValues count (image.drop offset))) := by
  induction count generalizing offset values with
  | zero => rfl
  | succ count ih =>
    rw [readValues, read_eq (by omega) (by omega), read_eq (by omega) (by omega)]
    simp only [Option.bind_eq_bind, Option.bind_some]
    rw [ih _ (by omega), getValues, Std.ExtTreeMap.insertMany_cons, List.drop_drop, List.drop_drop]
    unfold Bytes.slice
    rw [Nat.add_sub_cancel_left, show offset + 16 - (offset + 8) = 8 by omega]

theorem readClients_eq {image : List UInt8} {count offset : Nat} (clients : WordMap ClientRecord)
    (h : offset + count * 32 ≤ image.length) :
    readClients image count offset clients =
      some (clients.insertMany (getClients count (image.drop offset))) := by
  induction count generalizing offset clients with
  | zero => rfl
  | succ count ih =>
    obtain ⟨found, hfound⟩ : ∃ found, image[offset + 24]? = some found :=
      ⟨_, List.getElem?_eq_getElem (by omega)⟩
    rw [readClients, read_eq (by omega) (by omega), read_eq (by omega) (by omega),
      read_eq (by omega) (by omega), hfound]
    simp only [Option.bind_eq_bind, Option.bind_some]
    rw [ih _ (by omega), getClients, Std.ExtTreeMap.insertMany_cons, List.drop_drop, List.drop_drop,
      List.drop_drop, List.getElem?_drop, hfound]
    unfold Bytes.slice
    rw [Nat.add_sub_cancel_left, show offset + 16 - (offset + 8) = 8 by omega,
      show offset + 24 - (offset + 16) = 8 by omega]
    simp only [Option.some.injEq]

/-- No read is out of range. -/
theorem restoreReads_eq (image : List UInt8) : restoreReads image = some (restore image) := by
  unfold restoreReads restore
  rcases Nat.lt_or_ge image.length 20 with hshort | hlen
  · simp [hshort]
  have hexpected : Bytes.slice image (image.length - 4) image.length =
      image.drop (image.length - 4) := by
    unfold Bytes.slice
    rw [List.take_of_length_le (by rw [List.length_drop])]
  rw [read_eq (by decide) (by omega), read_eq (by decide) (by omega),
    read_eq (by omega) (by omega), read_eq (by omega) (by omega), read_eq (by decide) (by omega),
    read_eq (by decide) (by omega), hexpected]
  have hmagic : Bytes.slice image 0 4 = image.take 4 := rfl
  have hversion : Bytes.slice image 4 6 = (image.drop 4).take 2 := rfl
  have hcovered : Bytes.slice image 0 (image.length - 4) = image.take (image.length - 4) := rfl
  have hkeys : Bytes.slice image 8 12 = (image.drop 8).take 4 := rfl
  have hclients : Bytes.slice image 12 16 = (image.drop 12).take 4 := rfl
  have hshort : ¬ image.length < 20 := by omega
  simp only [hshort, if_false, Option.bind_eq_bind, Option.bind_some, Option.pure_def, hmagic,
    hversion, hcovered, hkeys, hclients]
  by_cases h₁ : image.take 4 = magic
  swap
  · simp [h₁]
  by_cases h₂ : Bytes.get ((image.drop 4).take 2) = 1
  swap
  · simp [h₁, h₂]
  by_cases h₃ : Bytes.crc32c (image.take (image.length - 4)) =
      Bytes.get (image.drop (image.length - 4))
  swap
  · simp [h₁, h₂, h₃]
  by_cases h₄ : 20 + Bytes.get ((image.drop 8).take 4) * 16 +
      Bytes.get ((image.drop 12).take 4) * 32 = image.length
  swap
  · simp [h₁, h₂, h₃, h₄]
  rw [readValues_eq ∅ (by omega), readClients_eq ∅ (by omega),
    ← Std.ExtTreeMap.ofList_eq_insertMany_empty, ← Std.ExtTreeMap.ofList_eq_insertMany_empty]
  simp [h₁, h₂, h₃, h₄]

/-! ## Going on behind a snapshot -/

/-- What applying the entries returns, one after the other. -/
def results (m : Machine) : List Entry → List (Except ApplyError Result)
  | [] => []
  | entry :: entries => (m.apply entry).1 :: results (m.apply entry).2 entries

theorem results_append (m : Machine) (front back : List Entry) :
    m.results (front ++ back) = m.results front ++ (m.applyAll front).results back := by
  induction front generalizing m with
  | nil => rfl
  | cons entry front ih =>
    rw [List.cons_append, results, ih, results, List.cons_append]
    rfl

/-- The two machines hold the same. -/
def Agree (m m' : Machine) : Prop :=
  (∀ key, m.get key = m'.get key) ∧ ∀ client : Word, m.clients[client]? = m'.clients[client]?

theorem Agree.eq {m m' : Machine} (h : Agree m m') : m = m' := by
  obtain ⟨values, clients⟩ := m
  obtain ⟨values', clients'⟩ := m'
  obtain ⟨hv, hc⟩ := h
  have hvalues : values = values' := Std.ExtTreeMap.ext_getElem? hv
  have hclients : clients = clients' := Std.ExtTreeMap.ext_getElem? fun client => hc client
  rw [hvalues, hclients]

/-- A machine is saved and restored behind any prefix of its entries without a trace, its
bytes are those of every machine that holds the same, and whatever is restored is read
within its bounds. -/
theorem snapshot_equals_replay :
    (∀ front back keys clients, keys.Perm (new.applyAll front).values.keys →
      clients.Perm (new.applyAll front).clients.keys →
      (new.applyAll front).values.size < 2 ^ 32 → (new.applyAll front).clients.size < 2 ^ 32 →
      ∃ m, restoreReads ((new.applyAll front).snapshotFrom keys clients) = some (some m) ∧
        m = new.applyAll front ∧ m.applyAll back = new.applyAll (front ++ back) ∧
        new.results front ++ m.results back = new.results (front ++ back)) ∧
    (∀ m m' keys keys' clients clients', Agree m m' → keys.Perm m.values.keys →
      keys'.Perm m'.values.keys → clients.Perm m.clients.keys → clients'.Perm m'.clients.keys →
      m.snapshotFrom keys clients = m'.snapshotFrom keys' clients') ∧
    ∀ image, restoreReads image ≠ none := by
  refine ⟨fun front back keys clients hk hc hkeys hclients => ?_,
    fun m m' keys keys' clients clients' heq hk hk' hc hc' => ?_, fun image => ?_⟩
  · refine ⟨new.applyAll front, ?_, rfl, (applyAll_append new front back).symm,
      (results_append new front back).symm⟩
    rw [restoreReads_eq, snapshotFrom_eq hk hc, restore_snapshot, if_pos]
    rw [Std.ExtTreeMap.length_toList, Std.ExtTreeMap.length_toList]
    exact ⟨hkeys, hclients⟩
  · rw [snapshotFrom_eq hk hc, snapshotFrom_eq hk' hc', heq.eq]
  · rw [restoreReads_eq]
    exact Option.some_ne_none _

end Promtact.StateMachine.Machine
