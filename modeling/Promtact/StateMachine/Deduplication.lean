import Promtact.StateMachine

/-!
# Every request takes effect once

The machine only keeps the last request of each client. What it computes from a list of
entries is what the `effective` ones do without any look at the clients: an entry is
effective when it is a mutation with a number above those of all effective entries of its
client before it.

`Tracks` relates the table of clients to the effective entries so far.
-/

namespace Promtact.StateMachine

open Promtact.Raft

/-- The entry changes the machine when its request is new. -/
def Mutates (entry : Entry) : Prop := entry.operation = .put ∨ entry.operation = .delete

instance (entry : Entry) : Decidable (Mutates entry) := by
  unfold Mutates
  infer_instance

/-- The entry is effective behind the effective entries before it. -/
def Fresh (earlier : List Entry) (entry : Entry) : Prop :=
  Mutates entry ∧ ∀ e ∈ earlier, e.clientID = entry.clientID → e.requestID < entry.requestID

instance (earlier : List Entry) (entry : Entry) : Decidable (Fresh earlier entry) := by
  unfold Fresh
  infer_instance

def takeIn (earlier : List Entry) (entry : Entry) : List Entry :=
  if Fresh earlier entry then earlier ++ [entry] else earlier

/-- The entries of the list that are effective. -/
def effective (entries : List Entry) : List Entry := entries.foldl takeIn []

/-- The entry behind `front` is the last effective one of its client. -/
structure Latest (entries front : List Entry) (entry : Entry) (back : List Entry) : Prop where
  split : entries = front ++ entry :: back
  fresh : Fresh (effective front) entry
  last : ∀ e ∈ effective entries, e.clientID = entry.clientID → e.requestID ≤ entry.requestID

theorem effective_append (front back : List Entry) :
    effective (front ++ back) = back.foldl takeIn (effective front) :=
  List.foldl_append

theorem takeIn_sublist (earlier : List Entry) (entry : Entry) :
    earlier.Sublist (takeIn earlier entry) := by
  unfold takeIn
  split
  · exact List.sublist_append_left _ _
  · exact List.Sublist.refl _

theorem foldl_takeIn_sublist (earlier entries : List Entry) :
    earlier.Sublist (entries.foldl takeIn earlier) := by
  induction entries generalizing earlier with
  | nil => exact List.Sublist.refl _
  | cons entry entries ih => exact (takeIn_sublist earlier entry).trans (ih _)

/-- The numbers of a client only go up. -/
theorem effective_increasing (entries : List Entry) :
    (effective entries).Pairwise fun a b => a.clientID = b.clientID → a.requestID < b.requestID := by
  suffices h : ∀ earlier : List Entry,
      earlier.Pairwise (fun a b => a.clientID = b.clientID → a.requestID < b.requestID) →
      (entries.foldl takeIn earlier).Pairwise fun a b =>
        a.clientID = b.clientID → a.requestID < b.requestID from h [] List.Pairwise.nil
  induction entries with
  | nil => exact fun _ h => h
  | cons entry entries ih =>
    intro earlier hearlier
    refine ih _ ?_
    unfold takeIn
    split
    · rename_i hfresh
      refine List.pairwise_append.mpr ⟨hearlier, List.pairwise_singleton _ _, fun a ha b hb => ?_⟩
      rw [List.mem_singleton] at hb
      subst hb
      exact hfresh.2 a ha
    · exact hearlier

namespace Machine

/-- All entries executed, without a look at the clients. -/
def executeAll (m : Machine) (entries : List Entry) : Machine :=
  entries.foldl (fun m entry => (m.execute entry).2) m

theorem executeAll_append (m : Machine) (front back : List Entry) :
    m.executeAll (front ++ back) = (m.executeAll front).executeAll back :=
  List.foldl_append

theorem applyAll_append (m : Machine) (front back : List Entry) :
    m.applyAll (front ++ back) = (m.applyAll front).applyAll back :=
  List.foldl_append

variable {m : Machine} {earlier : List Entry} {entry : Entry}

/-- A mutation that is executed has a result, which the table keeps. -/
theorem execute_mutates (m : Machine) (h : Mutates entry) : ∃ result,
    (m.execute entry).1 = .ok result ∧ result.clientID = entry.clientID ∧
      result.requestID = entry.requestID ∧ (m.execute entry).2.clients =
        m.clients.insert entry.clientID ⟨entry.requestID, result.value, result.found⟩ := by
  unfold execute
  rcases h with hop | hop
  · rw [hop]
    exact ⟨_, rfl, rfl, rfl, rfl⟩
  · rw [hop]
    exact ⟨_, rfl, rfl, rfl, rfl⟩

/-- The table of clients has the last effective request of each of them. -/
structure Tracks (m : Machine) (earlier : List Entry) : Prop where
  known : ∀ e ∈ earlier, ∃ record, m.clients[e.clientID]? = some record ∧
    e.requestID ≤ record.requestID
  last : ∀ client record, m.clients[client]? = some record →
    ∃ e ∈ earlier, e.clientID = client ∧ e.requestID = record.requestID

theorem tracks_new : Tracks new [] where
  known _ he := nomatch he
  last client record h := by simp [new] at h

/-- An effective entry is executed. -/
theorem Tracks.apply_fresh (ht : Tracks m earlier) (hf : Fresh earlier entry) :
    m.apply entry = m.execute entry := by
  have hop : entry.operation ≠ .legacy := by
    rcases hf.1 with hop | hop <;> simp [hop]
  unfold apply
  rw [if_neg hop]
  cases hrecord : m.clients[entry.clientID]? with
  | none => rfl
  | some record =>
    obtain ⟨e, he, hclient, hrequest⟩ := ht.last _ _ hrecord
    have hlt := hf.2 e he hclient
    rw [hrequest] at hlt
    have hne : record.requestID ≠ entry.requestID := BitVec.ne_of_lt hlt
    simp only [if_neg hne, if_neg (BitVec.not_lt.mpr (BitVec.le_of_lt hlt))]

/-- Any other entry changes nothing. -/
theorem Tracks.apply_other (ht : Tracks m earlier) (hf : ¬ Fresh earlier entry) :
    (m.apply entry).2 = m := by
  unfold apply
  by_cases hop : entry.operation = .legacy
  · rw [if_pos hop]
  rw [if_neg hop]
  -- what is executed here is not a mutation
  have hexecute : ¬ Mutates entry → (m.execute entry).2 = m := by
    intro hno
    unfold execute
    split
    · rename_i hput
      exact absurd (Or.inl hput) hno
    · rename_i hdelete
      exact absurd (Or.inr hdelete) hno
    · rfl
  cases hrecord : m.clients[entry.clientID]? with
  | none =>
    refine hexecute fun hmut => hf ⟨hmut, fun e he hclient => ?_⟩
    obtain ⟨record, hknown, _⟩ := ht.known e he
    rw [hclient, hrecord] at hknown
    cases hknown
  | some record =>
    dsimp only
    split
    · rfl
    · split
      · rfl
      · rename_i hne hge
        refine hexecute fun hmut => hf ⟨hmut, fun e he hclient => ?_⟩
        obtain ⟨record', hknown, hle⟩ := ht.known e he
        rw [hclient, hrecord] at hknown
        cases hknown
        bv_omega

theorem Tracks.execute (ht : Tracks m earlier) (hf : Fresh earlier entry) :
    Tracks (m.execute entry).2 (earlier ++ [entry]) := by
  obtain ⟨result, _, _, _, hclients⟩ := execute_mutates m hf.1
  refine { known := fun e he => ?_, last := fun client record hrecord => ?_ }
  · rw [hclients, Std.ExtTreeMap.getElem?_insert]
    by_cases hclient : entry.clientID = e.clientID
    · refine ⟨_, if_pos (by simp [hclient]), ?_⟩
      rcases List.mem_append.mp he with hold | hnew
      · exact BitVec.le_of_lt (hf.2 e hold hclient.symm)
      · rw [List.mem_singleton] at hnew
        rw [hnew]
        exact BitVec.le_refl _
    · rcases List.mem_append.mp he with hold | hnew
      · rw [if_neg (by simpa using hclient)]
        exact ht.known e hold
      · rw [List.mem_singleton] at hnew
        exact absurd (by rw [hnew]) hclient
  · rw [hclients, Std.ExtTreeMap.getElem?_insert] at hrecord
    split at hrecord
    · rename_i hclient
      cases hrecord
      exact ⟨entry, by simp, by simpa using hclient, rfl⟩
    · obtain ⟨e, he, hlast⟩ := ht.last client record hrecord
      exact ⟨e, List.mem_append_left _ he, hlast⟩

/-- One entry, whether it is effective or not. -/
theorem Tracks.apply (ht : Tracks m earlier) (entry : Entry) :
    Tracks (m.apply entry).2 (takeIn earlier entry) := by
  unfold takeIn
  split
  · rename_i hf
    rw [ht.apply_fresh hf]
    exact ht.execute hf
  · rename_i hf
    rw [ht.apply_other hf]
    exact ht

theorem Tracks.applyAll (ht : Tracks m earlier) (entries : List Entry) :
    Tracks (m.applyAll entries) (entries.foldl takeIn earlier) := by
  induction entries generalizing m earlier with
  | nil => exact ht
  | cons entry entries ih => exact ih (ht.apply entry)

theorem tracks_effective (entries : List Entry) : Tracks (new.applyAll entries) (effective entries) :=
  tracks_new.applyAll entries

/-- What the machine computes is what the effective entries do. -/
theorem applyAll_effective (entries : List Entry) :
    new.applyAll entries = new.executeAll (effective entries) := by
  suffices h : ∀ earlier : List Entry, Tracks (new.executeAll earlier) earlier →
      (new.executeAll earlier).applyAll entries =
        new.executeAll (entries.foldl takeIn earlier) from h [] tracks_new
  induction entries with
  | nil => exact fun _ _ => rfl
  | cons entry entries ih =>
    intro earlier ht
    have hstep : ((new.executeAll earlier).apply entry).2 =
        new.executeAll (takeIn earlier entry) := by
      unfold takeIn
      split
      · rename_i hf
        rw [ht.apply_fresh hf, executeAll_append]
        rfl
      · rename_i hf
        exact ht.apply_other hf
    have ht' := ht.apply entry
    rw [hstep] at ht'
    show ((new.executeAll earlier).apply entry).2.applyAll entries = _
    rw [hstep]
    exact ih _ ht'

/-- The record of a client stays while none of its requests takes effect. -/
theorem Tracks.record_stays {e : Entry} {entries : List Entry} (ht : Tracks m earlier)
    (he : e ∈ earlier) (hlast : ∀ p ∈ entries.foldl takeIn earlier, p.clientID = e.clientID →
      p.requestID ≤ e.requestID) :
    (m.applyAll entries).clients[e.clientID]? = m.clients[e.clientID]? := by
  induction entries generalizing m earlier with
  | nil => rfl
  | cons entry entries ih =>
    have hstep : (m.apply entry).2.clients[e.clientID]? = m.clients[e.clientID]? := by
      by_cases hf : Fresh earlier entry
      · have hne : entry.clientID ≠ e.clientID := by
          intro hclient
          have hmem : entry ∈ (entry :: entries).foldl takeIn earlier := by
            refine (foldl_takeIn_sublist (takeIn earlier entry) entries).subset ?_
            simp [takeIn, hf]
          have hle := hlast entry hmem hclient
          exact BitVec.not_lt.mpr hle (hf.2 e he hclient.symm)
        obtain ⟨_, _, _, _, hclients⟩ := execute_mutates m hf.1
        rw [ht.apply_fresh hf, hclients, Std.ExtTreeMap.getElem?_insert,
          if_neg (by simpa using hne)]
      · rw [ht.apply_other hf]
    rw [← hstep]
    exact ih (ht.apply entry) ((takeIn_sublist earlier entry).subset he) hlast

/-- The record of a client behind its latest effective request is the one that its first
application left. -/
theorem latest_record {entries front back : List Entry} (h : Latest entries front entry back) :
    ∃ result, ((new.applyAll front).apply entry).1 = .ok result ∧
      result.clientID = entry.clientID ∧ result.requestID = entry.requestID ∧
      (new.applyAll entries).clients[entry.clientID]? =
        some ⟨entry.requestID, result.value, result.found⟩ := by
  obtain ⟨hsplit, hfresh, hlast⟩ := h
  have ht := tracks_effective front
  have happly := ht.apply_fresh hfresh
  obtain ⟨result, hresult, hclient, hrequest, hclients⟩ :=
    execute_mutates (new.applyAll front) hfresh.1
  refine ⟨result, by rw [happly, hresult], hclient, hrequest, ?_⟩
  have hmem : entry ∈ takeIn (effective front) entry := by simp [takeIn, hfresh]
  rw [hsplit, effective_append, List.foldl_cons] at hlast
  have hstays := (ht.apply entry).record_stays hmem hlast
  rw [hsplit, applyAll_append]
  show (((new.applyAll front).apply entry).2.applyAll back).clients[entry.clientID]? = _
  rw [hstays, happly, hclients, Std.ExtTreeMap.getElem?_insert_self]

/-- Every client with an effective request has a latest one. -/
theorem exists_latest {entries : List Entry} {client : Word}
    (h : ∃ e ∈ effective entries, e.clientID = client) :
    ∃ front entry back, Latest entries front entry back ∧ entry.clientID = client := by
  induction entries using List.reverseRecOn with
  | nil =>
    obtain ⟨e, he, _⟩ := h
    cases he
  | append_singleton entries x ih =>
    have hstep : effective (entries ++ [x]) = takeIn (effective entries) x := effective_append _ _
    by_cases hx : Fresh (effective entries) x ∧ x.clientID = client
    · refine ⟨entries, x, [], { split := rfl, fresh := hx.1, last := fun e he hclient => ?_ }, hx.2⟩
      rw [hstep, takeIn, if_pos hx.1] at he
      rcases List.mem_append.mp he with hold | hnew
      · exact BitVec.le_of_lt (hx.1.2 e hold hclient)
      · rw [List.mem_singleton] at hnew
        rw [hnew]
        exact BitVec.le_refl _
    · -- the last entry is not effective, or one of another client
      have hold : ∀ e ∈ effective (entries ++ [x]), e.clientID = client → e ∈ effective entries := by
        intro e he hclient
        rw [hstep, takeIn] at he
        split at he
        · rename_i hf
          rcases List.mem_append.mp he with hold | hnew
          · exact hold
          · rw [List.mem_singleton] at hnew
            exact absurd ⟨hf, by rw [← hnew]; exact hclient⟩ hx
        · exact he
      obtain ⟨e, he, hclient⟩ := h
      obtain ⟨front, entry, back, hlatest, hentry⟩ := ih ⟨e, hold e he hclient, hclient⟩
      refine ⟨front, entry, back ++ [x], {
        split := by rw [hlatest.split, List.append_assoc, List.cons_append]
        fresh := hlatest.fresh
        last := fun p hp hp' => ?_ }, hentry⟩
      exact hlatest.last p (hold p hp (hp'.trans hentry)) hp'

/-- The lists of entries, and what the machine makes of them: the state is the one that the
effective entries leave without deduplication, their numbers go up for every client, the
latest request of a client is answered as it was at first, and the table says which
requests are the latest and which are older. -/
theorem deduplication_exactly_once (entries : List Entry) :
    new.applyAll entries = new.executeAll (effective entries) ∧
    ((effective entries).Pairwise fun a b =>
      a.clientID = b.clientID → a.requestID < b.requestID) ∧
    (∀ client, (∃ e ∈ effective entries, e.clientID = client) →
      ∃ front entry back, Latest entries front entry back ∧ entry.clientID = client) ∧
    (∀ client, (∀ e ∈ effective entries, e.clientID ≠ client) →
      ∀ request, (new.applyAll entries).cached client request = .ok none) ∧
    ∀ front entry back, Latest entries front entry back →
      ∃ result, ((new.applyAll front).apply entry).1 = .ok result ∧
        (∀ again : Entry, again.operation ≠ .legacy → again.clientID = entry.clientID →
          again.requestID = entry.requestID →
          (new.applyAll entries).apply again = (.ok result, new.applyAll entries)) ∧
        ∀ request,
          ((new.applyAll entries).cached entry.clientID request = .ok (some result) ↔
            request = entry.requestID) ∧
          ((new.applyAll entries).cached entry.clientID request = .error .staleRequest ↔
            request < entry.requestID) := by
  refine ⟨applyAll_effective entries, effective_increasing entries, fun _ => exists_latest,
    fun client hnone request => ?_, fun front entry back hlatest => ?_⟩
  · have hrecord : (new.applyAll entries).clients[client]? = none := by
      cases hrecord : (new.applyAll entries).clients[client]? with
      | none => rfl
      | some record =>
        obtain ⟨e, he, hclient, _⟩ := (tracks_effective entries).last client record hrecord
        exact absurd hclient (hnone e he)
    unfold cached
    rw [hrecord]
  · obtain ⟨result, hresult, hclient, hrequest, hrecord⟩ := latest_record hlatest
    refine ⟨result, hresult, fun again hop hclient' hrequest' => ?_, fun request => ?_⟩
    · unfold apply
      rw [if_neg hop, hclient', hrecord]
      simp only [hrequest', if_true]
      rw [← hclient, ← hrequest]
    · have hcached : (new.applyAll entries).cached entry.clientID request =
          if request > entry.requestID then .ok none
          else if request < entry.requestID then .error .staleRequest
          else .ok (some ⟨entry.clientID, request, result.value, result.found⟩) := by
        unfold cached
        rw [hrecord]
      rw [hcached]
      rcases BitVec.lt_trichotomy request entry.requestID with hlt | heq | hgt
      · have hnot : ¬ request > entry.requestID := BitVec.not_lt.mpr (BitVec.le_of_lt hlt)
        rw [if_neg hnot, if_pos hlt]
        simp [hlt, BitVec.ne_of_lt hlt]
      · subst heq
        simp [← hclient, ← hrequest]
      · rw [if_pos hgt]
        have hnot : ¬ request < entry.requestID := BitVec.not_lt.mpr (BitVec.le_of_lt hgt)
        simp [hnot, (BitVec.ne_of_lt hgt).symm]

end Machine

end Promtact.StateMachine
