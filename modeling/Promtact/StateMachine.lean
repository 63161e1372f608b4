import Mathlib
import Promtact.Bytes
import Promtact.Raft.Types

/-!
# The replicated state machine

The key-value store that the log drives (`statemachine/machine.go`). Every client
numbers its requests, and the machine keeps the last one of each client with its
result: a repeated request gets the old result, an older one is refused.

A snapshot lists the keys and the clients in order, with their counts in front and
a checksum behind. Restoring checks all three; what it accepts of a machine's own
snapshot is that machine (`restore_snapshot`).
-/

namespace Promtact.StateMachine

open Promtact.Raft

inductive ApplyError
  | staleRequest | unsupportedOperation
  deriving DecidableEq, Repr

structure Result where
  clientID : Word := 0
  requestID : Word := 0
  value : Word := 0
  found : Bool := false
  deriving DecidableEq, Repr

structure ClientRecord where
  requestID : Word
  value : Word
  found : Bool
  deriving DecidableEq, Repr

instance word_transOrd : Std.TransOrd Word := inferInstance

/-- A Go map with 64-bit keys. -/
abbrev WordMap (α : Type) := Std.ExtTreeMap Word α compare

structure Machine where
  values : WordMap Word
  clients : WordMap ClientRecord

namespace Machine

def new : Machine := ⟨∅, ∅⟩

/-! ## Applying entries -/

/-- A request that the client has not made before. -/
def execute (m : Machine) (entry : Entry) : Except ApplyError Result × Machine :=
  match entry.operation with
  | .put =>
    let result : Result := { clientID := entry.clientID, requestID := entry.requestID
                             value := entry.value, found := true }
    (.ok result, {
      values := m.values.insert entry.key entry.value
      clients := m.clients.insert entry.clientID ⟨result.requestID, result.value, result.found⟩ })
  | .delete =>
    let old := m.values[entry.key]?
    let result : Result := { clientID := entry.clientID, requestID := entry.requestID
                             value := old.getD 0, found := old.isSome }
    (.ok result, {
      values := m.values.erase entry.key
      clients := m.clients.insert entry.clientID ⟨result.requestID, result.value, result.found⟩ })
  | _ => (.error .unsupportedOperation, m)

def apply (m : Machine) (entry : Entry) : Except ApplyError Result × Machine :=
  if entry.operation = .legacy then (.ok {}, m)
  else
    match m.clients[entry.clientID]? with
    | some previous =>
      if previous.requestID = entry.requestID then
        (.ok ⟨entry.clientID, previous.requestID, previous.value, previous.found⟩, m)
      else if entry.requestID < previous.requestID then (.error .staleRequest, m)
      else m.execute entry
    | none => m.execute entry

def get (m : Machine) (key : Word) : Option Word := m.values[key]?

/-- The result of a request that was applied; `none` when it was not, an error when
a later one was. -/
def cached (m : Machine) (clientID requestID : Word) : Except ApplyError (Option Result) :=
  match m.clients[clientID]? with
  | none => .ok none
  | some record =>
    if requestID > record.requestID then .ok none
    else if requestID < record.requestID then .error .staleRequest
    else .ok (some ⟨clientID, requestID, record.value, record.found⟩)

/-- The machine after all entries, whatever their results. -/
def applyAll (m : Machine) (entries : List Entry) : Machine :=
  entries.foldl (fun m entry => (m.apply entry).2) m

/-! ## Snapshots -/

def magic : List UInt8 := [0x48, 0x59, 0x53, 0x4D]

def putWord (x : Word) : List UInt8 := Bytes.put 8 x.toNat

def getWord (bs : List UInt8) : Word := BitVec.ofNat 64 (Bytes.get bs)

def putValue (pair : Word × Word) : List UInt8 := putWord pair.1 ++ putWord pair.2

def putClient (pair : Word × ClientRecord) : List UInt8 :=
  putWord pair.1 ++ putWord pair.2.requestID ++ putWord pair.2.value ++
    (if pair.2.found then 1 else 0) :: List.replicate 7 0

/-- A snapshot without its checksum. -/
def body (m : Machine) : List UInt8 :=
  magic ++ Bytes.put 2 1 ++ [0, 0] ++ Bytes.put 4 m.values.toList.length ++
    Bytes.put 4 m.clients.toList.length ++ m.values.toList.flatMap putValue ++
    m.clients.toList.flatMap putClient

def snapshot (m : Machine) : List UInt8 := m.body ++ Bytes.put 4 (Bytes.crc32c m.body)

def getValues : Nat → List UInt8 → List (Word × Word)
  | 0, _ => []
  | count + 1, bs => (getWord (bs.take 8), getWord ((bs.drop 8).take 8)) :: getValues count (bs.drop 16)

def getClients : Nat → List UInt8 → List (Word × ClientRecord)
  | 0, _ => []
  | count + 1, bs =>
    (getWord (bs.take 8), {
      requestID := getWord ((bs.drop 8).take 8)
      value := getWord ((bs.drop 16).take 8)
      found := bs[24]? = some 1 }) :: getClients count (bs.drop 32)

/-- The machine of a snapshot; `none` for `ErrBadSnapshot`. -/
def restore (image : List UInt8) : Option Machine :=
  if image.length < 20 || image.take 4 ≠ magic || Bytes.get ((image.drop 4).take 2) ≠ 1 then none
  else if Bytes.crc32c (image.take (image.length - 4)) ≠
      Bytes.get (image.drop (image.length - 4)) then none
  else
    let keyCount := Bytes.get ((image.drop 8).take 4)
    let clientCount := Bytes.get ((image.drop 12).take 4)
    if 20 + keyCount * 16 + clientCount * 32 ≠ image.length then none
    else some {
      values := .ofList (getValues keyCount (image.drop 16))
      clients := .ofList (getClients clientCount (image.drop (16 + keyCount * 16))) }

/-! ## Restoring a snapshot -/

theorem length_putWord (x : Word) : (putWord x).length = 8 := Bytes.length_put 8 _

theorem getWord_putWord (x : Word) : getWord (putWord x) = x := by
  unfold getWord putWord
  rw [Bytes.get_put_of_lt (by exact x.isLt)]
  exact BitVec.ofNat_toNat 64 x

theorem length_putValue (pair : Word × Word) : (putValue pair).length = 16 := by
  simp [putValue, length_putWord]

theorem length_putClient (pair : Word × ClientRecord) : (putClient pair).length = 32 := by
  simp [putClient, length_putWord]

theorem getValues_flatMap (l : List (Word × Word)) (rest : List UInt8) :
    getValues l.length (l.flatMap putValue ++ rest) = l := by
  induction l with
  | nil => rfl
  | cons pair l ih =>
    obtain ⟨key, value⟩ := pair
    rw [List.flatMap_cons, List.append_assoc, List.length_cons, getValues,
      List.drop_left' (length_putValue _), ih, putValue, List.append_assoc,
      List.take_left' (length_putWord key), List.drop_left' (length_putWord key),
      List.take_left' (length_putWord value), getWord_putWord, getWord_putWord]

theorem getClients_flatMap (l : List (Word × ClientRecord)) (rest : List UInt8) :
    getClients l.length (l.flatMap putClient ++ rest) = l := by
  induction l with
  | nil => rfl
  | cons pair l ih =>
    obtain ⟨client, requestID, value, found⟩ := pair
    obtain ⟨tail, htail⟩ : ∃ tail, tail = l.flatMap putClient ++ rest := ⟨_, rfl⟩
    have hbytes : putClient (client, ⟨requestID, value, found⟩) ++ tail = putWord client ++
        (putWord requestID ++ (putWord value ++ ((if found then 1 else 0) ::
          (List.replicate 7 0 ++ tail)))) := by
      simp only [putClient, List.append_assoc, List.cons_append]
    have hdrop : ∀ {a b c : List UInt8}, a.length = 8 → b.length = 8 →
        (a ++ (b ++ c)).drop 16 = c := by
      intro a b c ha hb
      rw [← List.append_assoc, List.drop_left' (by simp [ha, hb])]
    have hfound : (putWord client ++ (putWord requestID ++ (putWord value ++
        ((if found then 1 else 0) :: (List.replicate 7 0 ++ tail)))))[24]? =
          some (if found then 1 else 0) := by
      rw [List.getElem?_append_right (by simp [length_putWord]),
        List.getElem?_append_right (by simp [length_putWord]),
        List.getElem?_append_right (by simp [length_putWord])]
      simp [length_putWord]
    rw [List.flatMap_cons, List.append_assoc, List.length_cons, getClients,
      List.drop_left' (length_putClient _), ih, ← htail, hbytes,
      List.take_left' (length_putWord client), List.drop_left' (length_putWord client),
      List.take_left' (length_putWord requestID),
      hdrop (length_putWord client) (length_putWord requestID),
      List.take_left' (length_putWord value), hfound, getWord_putWord, getWord_putWord,
      getWord_putWord]
    cases found <;> rfl

/-- A map is what its list says. -/
theorem ofList_toList {α : Type} (t : WordMap α) : Std.ExtTreeMap.ofList t.toList compare = t := by
  refine Std.ExtTreeMap.ext_getElem? fun k => ?_
  cases hk : t[k]? with
  | some v =>
    refine Std.ExtTreeMap.getElem?_ofList_of_mem (k := k) (by simp)
      Std.ExtTreeMap.distinct_keys_toList ?_
    exact Std.ExtTreeMap.mem_toList_iff_getElem?_eq_some.mpr hk
  | none =>
    refine Std.ExtTreeMap.getElem?_ofList_of_contains_eq_false ?_
    rw [← Bool.not_eq_true, List.contains_iff_mem]
    intro hmem
    obtain ⟨⟨k', v⟩, hpair, rfl⟩ := List.mem_map.mp hmem
    rw [Std.ExtTreeMap.mem_toList_iff_getElem?_eq_some.mp hpair] at hk
    cases hk

theorem length_body (m : Machine) :
    m.body.length = 16 + m.values.toList.length * 16 + m.clients.toList.length * 32 := by
  have hv : (m.values.toList.flatMap putValue).length = m.values.toList.length * 16 := by
    simp [List.length_flatMap, length_putValue]
  have hc : (m.clients.toList.flatMap putClient).length = m.clients.toList.length * 32 := by
    simp [List.length_flatMap, length_putClient]
  simp only [body, magic, List.length_append, Bytes.length_put, hv, hc, List.length_cons,
    List.length_nil]

theorem length_snapshot (m : Machine) :
    m.snapshot.length = 20 + m.values.toList.length * 16 + m.clients.toList.length * 32 := by
  rw [snapshot, List.length_append, length_body, Bytes.length_put]
  omega

/-- The parts of a snapshot. -/
theorem snapshot_eq (m : Machine) : m.snapshot = magic ++ (Bytes.put 2 1 ++ ([0, 0] ++
    (Bytes.put 4 m.values.toList.length ++ (Bytes.put 4 m.clients.toList.length ++
      (m.values.toList.flatMap putValue ++ (m.clients.toList.flatMap putClient ++
        Bytes.put 4 (Bytes.crc32c m.body))))))) := by
  obtain ⟨crc, hcrc⟩ : ∃ crc, crc = Bytes.put 4 (Bytes.crc32c m.body) := ⟨_, rfl⟩
  rw [snapshot, ← hcrc, body]
  simp only [List.append_assoc]

/-- A snapshot is accepted unless a count does not fit its field, and then it is the
machine that was saved. -/
theorem restore_snapshot (m : Machine) : restore m.snapshot =
    if m.values.toList.length < 2 ^ 32 ∧ m.clients.toList.length < 2 ^ 32 then some m else none := by
  have hlen := length_snapshot m
  have hsplit : m.snapshot.length - 4 = m.body.length := by
    rw [snapshot, List.length_append, Bytes.length_put]
    omega
  have hmagic : m.snapshot.take 4 = magic := by
    rw [snapshot_eq, List.take_left' (show magic.length = 4 from rfl)]
  have hversion : Bytes.get ((m.snapshot.drop 4).take 2) = 1 := by
    rw [snapshot_eq, List.drop_left' (show magic.length = 4 from rfl),
      List.take_left' (Bytes.length_put 2 1)]
    rfl
  have hbody : m.snapshot.take m.body.length = m.body := List.take_left' rfl
  have hcrc : Bytes.get (m.snapshot.drop m.body.length) = Bytes.crc32c m.body := by
    rw [snapshot, List.drop_left' rfl, Bytes.get_put_of_lt (Bytes.crc32c_lt _)]
  obtain ⟨rest, hrest⟩ : ∃ rest, rest = m.values.toList.flatMap putValue ++
    (m.clients.toList.flatMap putClient ++ Bytes.put 4 (Bytes.crc32c m.body)) := ⟨_, rfl⟩
  have hkeys : m.snapshot.drop 8 = Bytes.put 4 m.values.toList.length ++
      (Bytes.put 4 m.clients.toList.length ++ rest) := by
    rw [snapshot_eq, ← List.append_assoc, ← List.append_assoc,
      List.drop_left' (show (magic ++ Bytes.put 2 1 ++ [0, 0]).length = 8 from rfl), hrest]
  have hkeyCount : Bytes.get ((m.snapshot.drop 8).take 4) = m.values.toList.length % 2 ^ 32 := by
    rw [hkeys, List.take_left' (Bytes.length_put 4 _), Bytes.get_put]
    norm_num
  have hclients : m.snapshot.drop 12 = Bytes.put 4 m.clients.toList.length ++ rest := by
    rw [show 12 = 8 + 4 from rfl, ← List.drop_drop, hkeys, List.drop_left' (Bytes.length_put 4 _)]
  have hclientCount : Bytes.get ((m.snapshot.drop 12).take 4) =
      m.clients.toList.length % 2 ^ 32 := by
    rw [hclients, List.take_left' (Bytes.length_put 4 _), Bytes.get_put]
    norm_num
  have hvalues : m.snapshot.drop 16 = rest := by
    rw [show 16 = 12 + 4 from rfl, ← List.drop_drop, hclients,
      List.drop_left' (Bytes.length_put 4 _)]
  unfold restore
  rw [if_neg (by simp [hmagic, hversion, hlen]; omega), hsplit, hbody, hcrc, if_neg (by simp)]
  simp only [hkeyCount, hclientCount, hlen]
  split
  · rename_i hne
    rw [if_neg]
    rintro ⟨hk, hc⟩
    rw [Nat.mod_eq_of_lt hk, Nat.mod_eq_of_lt hc] at hne
    exact hne rfl
  · rename_i heq
    -- no count was cut
    have hk := Nat.mod_le m.values.toList.length (2 ^ 32)
    have hc := Nat.mod_le m.clients.toList.length (2 ^ 32)
    have hk' : m.values.toList.length % 2 ^ 32 = m.values.toList.length := by omega
    have hc' : m.clients.toList.length % 2 ^ 32 = m.clients.toList.length := by omega
    rw [if_pos ⟨by omega, by omega⟩, hk', hc', ← List.drop_drop, hvalues, hrest, getValues_flatMap,
      List.drop_left' (by simp [List.length_flatMap, length_putValue]), getClients_flatMap,
      ofList_toList, ofList_toList]

end Machine

end Promtact.StateMachine
