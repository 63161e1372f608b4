import Promtact.Server.Refusals

/-!
# Replies

A request waits for its response on a channel with room for one (`handleClient` in
`server.go`), and the loop sends on it without looking: a second response would stop the
loop for good.

The copies of a channel that a server holds, among its waiters or in the parked read, are
its debt. A round answers at the cost of the debt (`round_pays`), a request raises it by
one, and a restart drops it: no channel is sent two responses (`answered_at_most_once`).
-/

namespace Promtact

open Function (update)
open Protocol (ClientRequest ClientResponse Status)
open Raft (Node Word Entry Op LawfulStore OpenStore StableStore)

variable {σ : Type}

namespace Server

/-! ## Debts -/

/-- The channel that a response goes to. -/
def Output.channel? : Output → Option Nat
  | .replied k _ => some k
  | _ => none

def channels (output : List Output) : List Nat := output.filterMap Output.channel?

/-- How often a channel waits whose request has the key. -/
def debt (s : Server σ) (k : Nat) (key : PendingKey) : Nat :=
  (s.waitersOf key).count k + (s.reads.map (·.request.reply)).count k

/-- The channel waits under no other key. -/
def Apart (s : Server σ) (k : Nat) (key : PendingKey) : Prop :=
  ∀ other ≠ key, k ∉ s.waitersOf other

variable {k c : Nat} {key : PendingKey} {s s' s₁ s₂ : Server σ} {new : List Output}

theorem silent (hpending : s.pending = fun _ => none) (hreads : s.reads = []) :
    s.Apart k key ∧ s.debt k key = 0 := by
  simp [Apart, debt, waitersOf, hpending, hreads]

/-- On the way to `s'` responses are sent at the cost of the debt, to which `c` was added. -/
structure Pays (k : Nat) (key : PendingKey) (c : Nat) (s s' : Server σ) : Prop where
  apart : s'.Apart k key
  balance : ∃ new, s'.output = s.output ++ new ∧
    (channels new).count k + s'.debt k key ≤ s.debt k key + c

theorem channels_append (output new : List Output) :
    channels (output ++ new) = channels output ++ channels new := List.filterMap_append

theorem Pays.trans (h : Pays k key c s s₁) (h' : Pays k key 0 s₁ s₂) : Pays k key c s s₂ := by
  obtain ⟨new, hout, hle⟩ := h.balance
  obtain ⟨new', hout', hle'⟩ := h'.balance
  refine ⟨h'.apart, new ++ new', by rw [hout', hout, List.append_assoc], ?_⟩
  rw [channels_append, List.count_append]
  omega

/-! ## The calls of a round -/

/-- The waiters of one key change. -/
theorem Apart.rekeyed (ha : s.Apart k key) {own : PendingKey} {waiters : Option (List Nat)}
    (hpending : s'.pending = update s.pending own waiters) (hreads : s'.reads = s.reads)
    (hout : s'.output = s.output ++ new) (hown : own ≠ key → c = 0)
    (hcount : (channels new).count k + (waiters.getD []).count k ≤
      (s.waitersOf own).count k + c) : Pays k key c s s' := by
  have hwaiters : ∀ other, s'.waitersOf other =
      if other = own then waiters.getD [] else s.waitersOf other := by
    intro other
    rw [waitersOf, hpending, Function.update_apply]
    split <;> rfl
  have hnone (hne : own ≠ key) : (channels new).count k + (waiters.getD []).count k = 0 := by
    rw [List.count_eq_zero.mpr (ha own hne), hown hne] at hcount
    exact Nat.le_zero.mp hcount
  refine ⟨fun other hother hk => ?_, new, hout, ?_⟩
  · rw [hwaiters] at hk
    split at hk
    · rename_i heq
      have := hnone (heq ▸ hother)
      exact List.count_eq_zero.mp (by omega) hk
    · exact ha other hother hk
  · unfold debt
    rw [hwaiters, hreads]
    split
    · rename_i heq
      rw [heq]
      omega
    · rename_i hne
      have := hnone (Ne.symm hne)
      omega

/-- No waiter and no read changes. -/
theorem Apart.sent (ha : s.Apart k key) (hpending : s'.pending = s.pending)
    (hreads : s'.reads = s.reads) (hout : s'.output = s.output ++ new)
    (hle : (channels new).count k ≤ c) : Pays k key c s s' :=
  ha.rekeyed (hpending.trans (Function.update_eq_self key _).symm) hreads hout (absurd rfl)
    ((Nat.add_comm ..).trans_le (Nat.add_le_add_left hle _))

theorem Apart.called (ha : s.Apart k key) (op : Op) (n : Node σ) : Pays k key c s (s.called op n) :=
  ha.sent rfl rfl (List.append_nil _).symm (Nat.zero_le _)

theorem Apart.afterSend (ha : s.Apart k key) : Pays k key 0 s s.afterSend :=
  ha.sent rfl rfl rfl (List.count_eq_zero.mpr (by simp [channels, Output.channel?])).le

/-- The waiters of the entry are answered, and wait no more. -/
theorem Apart.afterEntry (ha : s.Apart k key) (entry : Entry) :
    Pays k key 0 s (s.afterEntry entry) := by
  refine ha.rekeyed rfl rfl rfl (fun _ => rfl) (Nat.le_of_eq ?_)
  rw [channels, List.filterMap_cons_none rfl, List.filterMap_map]
  exact congrArg (List.count k) List.filterMap_some

theorem Apart.afterEntries (ha : s.Apart k key) (entries : List Entry) :
    Pays k key 0 s (s.afterEntries entries) := by
  induction entries generalizing s with
  | nil => exact ha.sent rfl rfl (List.append_nil _).symm (Nat.zero_le _)
  | cons entry entries ih => exact (ha.afterEntry entry).trans (ih (ha.afterEntry entry).apart)

/-- The reads that are answered, and those that are kept. -/
theorem count_reads (answer : PendingRead → Option ClientResponse) (reads : List PendingRead) :
    (channels (reads.filterMap fun read => (answer read).map (.replied read.request.reply))).count k +
      ((reads.filter fun read => (answer read).isNone).map (·.request.reply)).count k =
    (reads.map (·.request.reply)).count k := by
  induction reads with
  | nil => rfl
  | cons read reads ih =>
    cases hanswer : answer read with
    | none => simpa [hanswer, List.count_cons, ← Nat.add_assoc] using ih
    | some response =>
      rw [List.map_cons, List.count_cons, ← ih, Nat.add_right_comm]
      simp [hanswer, List.count_cons, channels, Output.channel?]

theorem Apart.afterReads (ha : s.Apart k key) : Pays k key 0 s s.afterReads := by
  refine ⟨ha, _, rfl, Nat.le_of_eq ?_⟩
  have hreads := count_reads (k := k) s.answerTo s.reads
  unfold debt
  rw [show s.afterReads.waitersOf = s.waitersOf from rfl, show s.afterReads.reads =
    s.reads.filter fun read => (s.answerTo read).isNone from rfl]
  omega

/-! ## Requests and rounds -/

section Rounds

variable {incoming : Request} {input : Input}

/-- What an input adds to the debt. -/
def Input.brings (k : Nat) : Input → Nat
  | .request incoming => if incoming.reply = k then 1 else 0
  | _ => 0

variable [StableStore σ]

/-- A request is answered, or waits. -/
theorem Handled.pays (hh : Handled s incoming s') (ha : s.Apart k key)
    (hkey : incoming.reply = k → keyOf incoming.value = key) :
    Pays k key (if incoming.reply = k then 1 else 0) s s' := by
  have hown : keyOf incoming.value ≠ key → (if incoming.reply = k then 1 else 0) = 0 :=
    fun hne => if_neg fun hreply => hne (hkey hreply)
  have hone (response : ClientResponse) : (channels [.replied incoming.reply response]).count k ≤
      if incoming.reply = k then 1 else 0 := by
    simp [channels, Output.channel?, List.count_singleton]
  cases hh with
  | status => exact ha.sent rfl rfl rfl (hone _)
  | notLeader => exact ha.sent rfl rfl rfl (hone _)
  | readBusy => exact ha.sent rfl rfl rfl (hone _)
  | readRefused => exact ha.sent rfl rfl rfl (hone _)
  | readParked _ _ hreads =>
    refine ⟨ha, [], (List.append_nil _).symm, Nat.le_of_eq ?_⟩
    simp [debt, waitersOf, hreads, Server.called, channels, List.count_singleton]
  | invalid => exact ha.sent rfl rfl rfl (hone _)
  | cached => exact ha.sent rfl rfl rfl (hone _)
  | @joined waiters _ hwaiters =>
    refine ha.rekeyed rfl rfl (List.append_nil _).symm hown (Nat.le_of_eq ?_)
    simp [channels, waitersOf, hwaiters, List.count_singleton]
  | refused => exact ha.sent rfl rfl rfl (hone _)
  | proposed =>
    refine ha.rekeyed rfl rfl (List.append_nil _).symm hown ?_
    simp [channels, List.count_singleton]

variable (ha : s.Apart k key)
  (hkey : ∀ incoming, input = .request incoming → incoming.reply = k → keyOf incoming.value = key)
include ha hkey

theorem Taken.pays (ht : Taken s input s') : Pays k key (input.brings k) s s' := by
  cases ht with
  | message => exact ha.called _ _
  | tick => exact ha.called _ _
  | request hh => exact hh.pays ha (hkey _ rfl)

/-- What a round answers it does not owe any more, whether it ends the loop, panics, or
goes on. -/
theorem round_pays {more : Bool} (hround : Round s input more s' ∨ Panicked s input s') :
    Pays k key (input.brings k) s s' := by
  have hsent : ∀ {s₁}, Taken s input s₁ → Pays k key (input.brings k) s s₁.afterSend :=
    fun ht => (ht.pays ha hkey).trans (ht.pays ha hkey).apart.afterSend
  have happlied : ∀ {s₁} (n : Node σ) (entries : List Entry), Taken s input s₁ →
      Pays k key (input.brings k) s (s₁.afterSend.applied n entries) := by
    intro s₁ n entries ht
    have hcalled := (hsent ht).trans ((hsent ht).apart.called .applyEntries n)
    exact hcalled.trans (hcalled.apart.afterEntries entries)
  rcases hround with hround | hpanic
  · cases hround with
    | ended htaken => exact htaken.pays ha hkey
    | @completed _ _ entries n htaken _ _ hcompact =>
      have hpays := happlied n entries htaken
      cases hcompact with
      | kept => exact hpays.trans hpays.apart.afterReads
      | called =>
        refine Pays.trans (hpays.trans (hpays.apart.called _ _)) (Apart.afterReads ?_)
        exact hpays.apart
  · cases hpanic with
    | message => exact ha.called _ _
    | tick => exact ha.called _ _
    | read => exact ha.called _ _
    | proposal => exact ha.called _ _
    | apply htaken => exact (hsent htaken).trans ((hsent htaken).apart.called _ _)
    | compact htaken _ hs₂ =>
      subst hs₂
      exact (happlied _ _ htaken).trans ((happlied _ _ htaken).apart.called _ _)

omit ha hkey in
/-- A server that was opened owes nothing, and has answered nothing. -/
theorem openServer_silent {config : Config} {store : σ} {recovery : Raft.Recovery}
    {err : Option OpenError} (hopen : openServer config store recovery = .ok (s, err)) :
    (s.Apart k key ∧ s.debt k key = 0) ∧ (channels s.output).count k = 0 := by
  obtain ⟨n, _, hreplay⟩ := openServer_ok hopen
  refine ⟨?_, List.count_eq_zero.mpr fun hk => ?_⟩
  · rcases replay_frame hreplay with heq | ⟨_, _, _, heq⟩
    · rw [heq]
      exact silent rfl rfl
    · rw [heq]
      exact silent rfl rfl
  · obtain ⟨o, ho, hk⟩ := List.mem_filterMap.mp hk
    rcases replay_cases rfl hreplay with ⟨_, rfl, _⟩ | ⟨_, entries, _, _, _, hentries⟩
    · cases ho
    · rcases replayEntries_output hentries o ho with hin | ⟨e, _, rfl⟩
      · cases hin
      · cases hk

end Rounds

end Server

/-! ## Hosts -/

namespace Host

/-- A server that has ended owes what it owed, until the restart. -/
def debt (h : Host σ) (k : Nat) (key : Server.PendingKey) : Nat :=
  match h.server? with
  | some s => s.debt k key
  | none => 0

def Event.brings (k : Nat) : Event → Nat
  | .input i => i.brings k
  | .restart _ => 0

def Apart (h : Host σ) (k : Nat) (key : Server.PendingKey) : Prop :=
  ∀ s ∈ h.server?, s.Apart k key

variable {h h' : Host σ} {s : Server σ} {ev : Event} {k c : Nat} {key : Server.PendingKey}

theorem pays_of_server (hh : h = .up s ∨ h = .ended s) (ha : s.Apart k key)
    (hle : (Server.channels s.output).count k + s.debt k key ≤ c) :
    h.Apart k key ∧ (Server.channels h.output).count k + h.debt k key ≤ c := by
  rcases hh with rfl | rfl
  · exact ⟨fun _ hs => by cases hs; exact ha, hle⟩
  · exact ⟨fun _ hs => by cases hs; exact ha, hle⟩

variable [OpenStore σ]

theorem next_pays (hnext : h.next ev = some h') (ha : h.Apart k key)
    (hkey : ∀ incoming, ev = .input (.request incoming) → incoming.reply = k →
      Server.keyOf incoming.value = key) : h'.Apart k key ∧
      (Server.channels h'.output).count k + h'.debt k key ≤ h.debt k key + ev.brings k := by
  have hround : ∀ (more : Bool) {input : Server.Input} {s s' : Server σ}, ev = .input input →
      h = .up s → Server.Round s.fresh input more s' ∨ Server.Panicked s.fresh input s' →
      (h' = .up s' ∨ h' = .ended s') → h'.Apart k key ∧
        (Server.channels h'.output).count k + h'.debt k key ≤ h.debt k key + ev.brings k := by
    rintro more input s s' rfl rfl hround hh
    obtain ⟨hapart, new, hout, hle⟩ := Server.round_pays (s := s.fresh) (ha s rfl)
      (fun incoming hin => hkey incoming (congrArg Event.input hin)) hround
    rw [← show s'.output = new from hout] at hle
    exact pays_of_server hh hapart hle
  cases passed_of_some hnext with
  | completed hup hloop => exact hround true rfl hup (Or.inl (Server.round_of_ok hloop)) (Or.inl rfl)
  | returned hup hloop => exact hround false rfl hup (Or.inl (Server.round_of_ok hloop)) (Or.inr rfl)
  | panicked hup hloop =>
    exact hround true rfl hup (Or.inr (Server.panicked_of_error hloop)) (Or.inr rfl)
  | @started _ _ s' _ _ _ _ _ hserver =>
    obtain ⟨⟨hapart, hdebt⟩, hcount⟩ : (s'.Apart k key ∧ _) ∧ _ :=
      Server.openServer_silent hserver
    exact pays_of_server (Or.inl rfl) hapart (by omega)
  | @refused _ _ s' _ _ _ _ _ _ hserver =>
    obtain ⟨⟨hapart, hdebt⟩, hcount⟩ : (s'.Apart k key ∧ _) ∧ _ :=
      Server.openServer_silent hserver
    exact pays_of_server (Or.inr rfl) hapart (by omega)

end Host

/-! ## Runs of a fleet -/

namespace Fleet

/-- How often a channel was answered. -/
def answers (f : Fleet σ) (k : Nat) : Nat := (Server.channels (f.record.map Prod.snd)).count k

/-- Request `k` was not made yet. -/
def unasked (f : Fleet σ) (k : Nat) : Nat := if f.requests.length ≤ k then 1 else 0

/-- The channel of request `k` is still to come, or waits at one host, or was answered. -/
structure Books (k : Nat) (key : Server.PendingKey) (f : Fleet σ) : Prop where
  apart : ∀ id, (f.hosts id).Apart k key
  single : ∀ id id', id ≠ id' →
    (f.hosts id).debt k key + (f.hosts id').debt k key + f.answers k + f.unasked k ≤ 1

theorem answers_append {f f' : Fleet σ} {id k : Nat} {output : List Server.Output}
    (hrecord : f'.record = f.record ++ output.map (id, ·)) :
    f'.answers k = f.answers k + (Server.channels output).count k := by
  unfold answers
  rw [hrecord, List.map_append, Server.channels_append, List.count_append, List.map_map]
  simp [Function.comp_def]

variable {voters : Word} {f f' : Fleet σ} {k id : Nat} {key : Server.PendingKey}

theorem unasked_append {request : ClientRequest} (h : f'.requests = f.requests ++ [request]) :
    f'.unasked k + (if f.requests.length = k then 1 else 0) = f.unasked k := by
  unfold unasked
  rw [h, List.length_append, List.length_singleton]
  split <;> split <;> split <;> omega

/-- What is answered at a host comes out of its debt, or out of the request that it takes. -/
theorem Books.pay {h : Host σ} {output : List Server.Output} (hb : Books k key f)
    (hhosts : f'.hosts = update f.hosts id h)
    (hrecord : f'.record = f.record ++ output.map (id, ·)) (hapart : h.Apart k key)
    (hle : (Server.channels output).count k + h.debt k key + f'.unasked k ≤
      (f.hosts id).debt k key + f.unasked k) : Books k key f' := by
  have hanswers := answers_append (k := k) hrecord
  have hhere : f'.hosts id = h := by rw [hhosts, Function.update_self]
  have hthere : ∀ a ≠ id, f'.hosts a = f.hosts a :=
    fun a ha => by rw [hhosts, Function.update_of_ne ha]
  refine ⟨fun a => ?_, fun a b hab => ?_⟩
  · by_cases ha : a = id
    · rwa [ha, hhere]
    · rw [hthere a ha]
      exact hb.apart a
  · have hsingle := hb.single a b hab
    by_cases ha : a = id
    · rw [hthere b (ha ▸ hab.symm), ha, hhere]
      rw [ha] at hsingle
      omega
    · have hsingle' := hb.single a id ha
      by_cases hb' : b = id
      · rw [hthere a ha, hb', hhere]
        omega
      · have hsingle'' := hb.single b id hb'
        rw [hthere a ha, hthere b hb']
        omega

variable [OpenStore σ]

theorem Books.act {ev : Host.Event} {requests : List ClientRequest} (hb : Books k key f)
    (hkey : ∀ incoming, ev = .input (.request incoming) → incoming.reply = k →
      Server.keyOf incoming.value = key)
    (hact : { f with requests := requests }.act id ev = some f')
    (hasked : f'.unasked k + ev.brings k ≤ f.unasked k) : Books k key f' := by
  obtain ⟨h, hnext, heq⟩ := act_eq_some.mp hact
  obtain ⟨hapart, hle⟩ := Host.next_pays (h := f.hosts id) hnext (hb.apart id) hkey
  exact hb.pay (by rw [heq]) (by rw [heq]) hapart (by omega)

theorem Books.step {ev : Event} (hb : Books k key f) (hstep : f.step voters ev = some f')
    (hkey : ∀ request, f'.requests[k]? = some request → Server.keyOf request = key) :
    Books k key f' := by
  have hrequests := step_requests hstep
  have hsame : f'.requests = f.requests → f'.unasked k ≤ f.unasked k := by
    intro heq
    unfold unasked
    rw [heq]
  cases stepped_of_some hstep with
  | deliver _ _ hact =>
    exact hb.act (fun _ hev => by cases hev) hact (hsame (act_requests hact))
  | @request id request _ hact =>
    refine hb.act (fun incoming hev hreply => hkey _ ?_) hact (unasked_append hrequests).le
    cases hev
    rw [act_requests hact, ← hreply]
    simp
  | @refuse id =>
    -- the request finds the queue full and is answered at once
    have hasked := unasked_append (k := k) hrequests
    refine hb.pay (Function.update_eq_self id f.hosts).symm
      (show _ = f.record ++ [.replied f.requests.length _].map (id, ·) from rfl) (hb.apart id) ?_
    rw [show Server.channels [.replied f.requests.length _] = [f.requests.length] from rfl,
      List.count_singleton]
    simp only [beq_iff_eq]
    omega
  | tick hact => exact hb.act (fun _ hev => by cases hev) hact (hsame (act_requests hact))
  | restart _ _ hact => exact hb.act (fun _ hev => by cases hev) hact (hsame (act_requests hact))

theorem Books.run {events : List Event} (hb : Books k key f)
    (hrun : Runs.run (Fleet.step voters) f events = some f')
    (hkey : ∀ request, f'.requests[k]? = some request → Server.keyOf request = key) :
    Books k key f' := by
  induction events generalizing f with
  | nil =>
    cases hrun
    exact hb
  | cons ev events ih =>
    obtain ⟨f₁, hstep, hrest⟩ := Runs.run_cons.mp hrun
    refine ih (hb.step hstep fun request hrequest => hkey request ?_) hrest
    exact QuorumLog.getElem?_of_pre (run_requests hrest) hrequest

end Fleet

/-- Every request is answered at most once, and nothing else is. -/
theorem Fleet.answered_at_most_once [LawfulStore σ] {voters : Word} {f₀ f : Fleet σ}
    {events : List Event} (hinit : f₀.Initial voters)
    (hrun : Runs.run (step voters) f₀ events = some f) (k : Nat) :
    f.answers k ≤ 1 ∧ (f.requests.length ≤ k → f.answers k = 0) := by
  obtain ⟨key, hkey⟩ : ∃ key, ∀ request, f.requests[k]? = some request →
      Server.keyOf request = key := by
    cases f.requests[k]? with
    | none => exact ⟨⟨0, 0⟩, fun _ h => by cases h⟩
    | some request => exact ⟨Server.keyOf request, fun _ h => by rw [← Option.some.inj h]⟩
  have hnew : ∀ id, (f₀.hosts id).Apart k key ∧ (f₀.hosts id).debt k key = 0 := by
    intro id
    rcases hinit.hosts id with habsent | ⟨config, store, s, hnew, _, _, _, hup⟩
    · rw [habsent]
      exact ⟨fun _ hup => (by cases hup), rfl⟩
    · obtain ⟨n, _, rfl⟩ := Host.new_ok hnew
      rw [hup]
      exact ⟨fun _ hs => by cases hs; exact (Server.silent rfl rfl).1, (Server.silent rfl rfl).2⟩
  have hb : Books k key f₀ := by
    refine ⟨fun id => (hnew id).1, fun id id' _ => ?_⟩
    rw [(hnew id).2, (hnew id').2]
    simp [answers, unasked, hinit.record, hinit.requests, Server.channels]
  have hsingle := (hb.run hrun hkey).single 0 1 (by decide)
  unfold unasked at hsingle
  refine ⟨by omega, fun hlen => ?_⟩
  rw [if_pos hlen] at hsingle
  omega

/-- The proposal fails behind the store, and the server is restarted. -/
theorem Fleet.answered_at_most_once_failedProposal : ∃ f,
    Runs.run (step 1) (soleFleet failingDisk) failedProposal = some f ∧ f.answers 0 = 1 ∧
    ∀ k, f.answers k ≤ 1 := by
  obtain ⟨f, hrun, hone⟩ := Runs.run_check (step 1) (soleFleet failingDisk) failedProposal
    (fun f => f.answers 0 = 1) (by decide +kernel)
  exact ⟨f, hrun, hone, fun k => (answered_at_most_once (soleFleet_initial _) hrun k).1⟩

end Promtact
