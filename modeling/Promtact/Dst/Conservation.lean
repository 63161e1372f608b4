import Promtact.Dst.Engine

/-!
# The engine loses, duplicates and reorders nothing

What the books say of an engine after any script (`Sound`): every drained message has
one letter, a letter that was scheduled is in exactly one place, and the deliveries
follow the schedule. `post`, `dispatch` and `isolate` keep this, and so does every
call.
-/

namespace Promtact.Dst

variable {γ M ρ : Type}

/-! ## The order -/

def Event.key (ev : Event M) : Nat ×ₗ Nat := toLex (ev.due, ev.seq)

theorem earlier_iff (a b : Event M) : earlier a b = true ↔ a.key < b.key := by
  unfold earlier Event.key
  rw [Prod.Lex.toLex_lt_toLex]
  simp

theorem earlier_of_seq {a b : Event M} (hdue : a.due ≤ b.due) (hseq : a.seq < b.seq) :
    earlier a b = true := by
  unfold earlier
  rcases Nat.lt_or_eq_of_le hdue with hlt | heq
  · simp [hlt]
  · simp [heq, hseq]

/-- Events with different numbers are never level. -/
theorem earlier_of_le {a b : Event M} (hle : a.key ≤ b.key) (hne : a.seq ≠ b.seq) :
    earlier a b = true := by
  refine (earlier_iff a b).mpr (lt_of_le_of_ne hle fun heq => hne ?_)
  exact congrArg (fun key => (ofLex key).2) heq

/-- A pop takes the event that is earlier than all others. -/
theorem pop_earlier {queue rest : Array (Event M)} {top : Event M}
    (hheap : BinaryHeap.IsHeap Event.key queue) (hnodup : (queue.toList.map (·.seq)).Nodup)
    (hpop : BinaryHeap.pop earlier queue = some (top, rest)) :
    ∀ other ∈ rest.toList, earlier top other = true := by
  intro other hother
  have hperm : queue.toList.Perm (top :: rest.toList) := BinaryHeap.pop_perm hpop
  have hsplit := (hperm.map (·.seq)).nodup_iff.mp hnodup
  rw [List.map_cons, List.nodup_cons] at hsplit
  have hle := (BinaryHeap.pop_heap earlier_iff hheap hpop).2 other
    (hperm.mem_iff.mpr (List.mem_cons_of_mem top hother))
  refine earlier_of_le hle fun hseq => ?_
  exact hsplit.1 (List.mem_map.mpr ⟨other, hother, hseq.symm⟩)

/-- When the root is not due, nothing is. -/
theorem none_due {queue : Array (Event M)} {now : Nat} (hheap : BinaryHeap.IsHeap Event.key queue)
    (hroot : ∀ root, queue[0]? = some root → now < root.due) : ∀ ev ∈ queue.toList, now < ev.due := by
  intro ev hev
  obtain ⟨i, hi, rfl⟩ := List.getElem_of_mem hev
  have hsize : i < queue.size := Array.length_toList ▸ hi
  have hfirst : queue[0]? = some queue[0] := Array.getElem?_eq_getElem (by omega)
  have hle := hheap.root_le i _ _ hfirst (Array.getElem?_eq_getElem hsize)
  rcases Prod.Lex.toLex_le_toLex.mp hle with hlt | ⟨heq, _⟩
  · exact Nat.lt_trans (hroot _ hfirst) hlt
  · exact Nat.lt_of_lt_of_eq (hroot _ hfirst) heq

theorem isolate_perm (node : Nat) (e : Engine γ M ρ) : (e.isolate node).2.queue.toList.Perm
    (e.queue.toList.filter fun ev => !Engine.touches node ev) := by
  refine BinaryHeap.rebuild_perm.trans ?_
  rw [Array.toList_filter]

/-! ## The books -/

def Fate.event? : Fate M → Option (Event M)
  | .scheduled event => some event
  | _ => none

theorem Fate.event?_eq_some {fate : Fate M} {ev : Event M} :
    fate.event? = some ev ↔ fate = .scheduled ev := by
  cases fate with
  | lost => exact iff_of_false nofun nofun
  | blocked name => exact iff_of_false nofun nofun
  | scheduled event => simp [Fate.event?]

def Fate.isBlockedBy (name : String) : Fate M → Bool
  | .blocked name' => name' = name
  | _ => false

/-- The events that were ever put into the schedule, in that order. -/
def Books.scheduled (b : Books M) : List (Event M) := b.letters.filterMap (·.fate.event?)

/-- The events that were delivered, in that order. -/
def Books.delivered (b : Books M) : List (Event M) := b.deliveries.map (·.event)

/-- What an engine and its books agree on, when the messages `rest` are drained and not
yet collected. -/
structure Sound [Wire M] (c : Config) (e : Engine γ M ρ) (rest : List M) : Prop where
  delay : e.delay = c.maxDelay
  heap : BinaryHeap.IsHeap Event.key e.queue
  drained : e.books.drained = e.books.letters.map (·.msg) ++ rest
  injected : ∀ name, e.injected name = e.books.letters.countP (·.fate.isBlockedBy name)
  named : ∀ l ∈ e.books.letters, ∀ name, l.fate = .blocked name →
    ∃ injector ∈ e.injectors, injector.name = name
  numbered : e.books.scheduled.map (·.seq) = List.range' 1 e.seq
  places : e.books.scheduled.Perm (e.queue.toList ++ e.books.delivered ++ e.books.isolated)
  timely : ∀ l ∈ e.books.letters, ∀ ev, l.fate = .scheduled ev →
    ev.msg = l.msg ∧ (ev.fromID, ev.toID) = Wire.route l.msg ∧
      l.sent ≤ ev.due ∧ ev.due ≤ l.sent + c.maxDelay
  routed : ∀ d ∈ e.books.deliveries, d.node = d.event.toID
  ordered : e.books.delivered.Pairwise fun a b => earlier a b = true
  later : ∀ d ∈ e.books.delivered, ∀ q ∈ e.queue.toList, earlier d q = true
  past : ∀ d ∈ e.books.delivered, d.due ≤ e.now

section Steps

variable {c : Config} {e e' : Engine γ M ρ} {m : M} {rest : List M}

/-- A property that every round of a loop keeps. -/
theorem foldlM_induction {S A : Type} {f : S → A → Option S} {P : S → Prop}
    (hstep : ∀ s a s', P s → f s a = some s' → P s') {l : List A} {s s' : S} (h : P s)
    (hfold : l.foldlM f s = some s') : P s' := by
  induction l generalizing s with
  | nil =>
    cases hfold
    exact h
  | cons a l ih =>
    rw [List.foldlM_cons] at hfold
    obtain ⟨s₁, hs, hfold⟩ := Option.bind_eq_some_iff.mp hfold
    exact ih (hstep s a s₁ h hs) hfold

/-- A message gets a letter, whatever its fate. -/
theorem note_scheduled (fate : Fate M) :
    (e.note m fate).scheduled = e.books.scheduled ++ (fate.event?).toList := by
  simp only [Books.scheduled, Engine.note, List.filterMap_append, List.filterMap_cons,
    List.filterMap_nil]
  cases fate <;> rfl

theorem mem_note_letters {fate : Fate M} {l : Letter M} (hl : l ∈ (e.note m fate).letters) :
    l ∈ e.books.letters ∨ l = ⟨m, e.now, fate⟩ := by
  simpa [Engine.note] using hl

theorem note_countP (fate : Fate M) (p : Letter M → Bool) :
    (e.note m fate).letters.countP p =
      e.books.letters.countP p + if p ⟨m, e.now, fate⟩ then 1 else 0 := by
  simp [Engine.note, List.countP_append, List.countP_singleton]

theorem blockedBy_ne {fromID toID d : Nat} (h : e.blockedBy fromID toID d ≠ "") :
    ∃ injector ∈ e.injectors, injector.name = e.blockedBy fromID toID d := by
  unfold Engine.blockedBy at h ⊢
  split
  · rename_i injector hfind
    exact ⟨injector, List.mem_of_find?_eq_some hfind, rfl⟩
  · rename_i hfind
    rw [hfind] at h
    exact absurd rfl h

variable [Wire M]

theorem new_sound (rng : ρ) (cluster : γ) :
    Sound c (Engine.new c rng cluster : Engine γ M ρ) [] where
  delay := rfl
  heap j _ _ x y hx := by
    simp [Engine.new] at hx
  drained := rfl
  injected _ := rfl
  named := nofun
  numbered := rfl
  places := List.Perm.refl _
  timely := nofun
  routed := nofun
  ordered := List.Pairwise.nil
  later := nofun
  past := nofun

/-- Every scheduled event has a number of its own, up to the latest. -/
theorem Sound.seq_le (h : Sound c e rest) {ev : Event M} (hev : ev ∈ e.books.scheduled) :
    ev.seq ≤ e.seq := by
  have hmem : ev.seq ∈ e.books.scheduled.map (·.seq) := List.mem_map_of_mem hev
  rw [h.numbered, List.mem_range'_1] at hmem
  omega

theorem Sound.delivered_scheduled (h : Sound c e rest) {ev : Event M} (hev : ev ∈ e.books.delivered) :
    ev ∈ e.books.scheduled :=
  h.places.mem_iff.mpr (by simp [hev])

/-- No two pending events have the same number. -/
theorem Sound.queue_nodup (h : Sound c e rest) : (e.queue.toList.map (·.seq)).Nodup := by
  have hall : (e.books.scheduled.map (·.seq)).Nodup := by
    rw [h.numbered]
    exact List.nodup_range'
  have hplaces := (h.places.map (·.seq)).nodup_iff.mp hall
  rw [List.map_append, List.map_append] at hplaces
  exact (List.nodup_append.mp (List.nodup_append.mp hplaces).1).1

/-- A message that does not enter the schedule. -/
theorem Sound.discard {rng : ρ} {injected : String → Nat} {fate : Fate M}
    (h : Sound c e (m :: rest)) (hfate : fate.event? = none)
    (hinjected : ∀ name, injected name = e.injected name + if fate.isBlockedBy name then 1 else 0)
    (hnamed : ∀ name, fate = .blocked name → ∃ injector ∈ e.injectors, injector.name = name) :
    Sound c { e with rng := rng, injected := injected, books := e.note m fate } rest :=
  { h with
    drained := by
      show e.books.drained = (e.books.letters ++ [(_ : Letter M)]).map (·.msg) ++ rest
      rw [h.drained]
      simp
    injected := fun name => by
      show injected name = (e.note m fate).letters.countP _
      rw [note_countP, hinjected, h.injected]
    named := fun l hl name hname => by
      rcases mem_note_letters hl with hl | rfl
      · exact h.named l hl name hname
      · exact hnamed name hname
    numbered := by
      show (e.note m fate).scheduled.map (·.seq) = _
      rw [note_scheduled, hfate, Option.toList_none, List.append_nil]
      exact h.numbered
    places := by
      show (e.note m fate).scheduled.Perm _
      rw [note_scheduled, hfate, Option.toList_none, List.append_nil]
      exact h.places
    timely := fun l hl ev hev => by
      rcases mem_note_letters hl with hl | rfl
      · exact h.timely l hl ev hev
      · rw [show fate = .scheduled ev from hev] at hfate
        cases hfate }

/-- A message that enters the schedule. -/
theorem Sound.schedule {rng : ρ} {d : Nat} (h : Sound c e (m :: rest)) (hd : d ≤ e.delay) :
    Sound c { e with
      rng := rng
      seq := e.seq + 1
      queue := BinaryHeap.push earlier e.queue
        ⟨e.now + d, e.seq + 1, (Wire.route m).1, (Wire.route m).2, m⟩
      books := e.note m
        (.scheduled ⟨e.now + d, e.seq + 1, (Wire.route m).1, (Wire.route m).2, m⟩) } rest := by
  generalize hevent : (⟨e.now + d, e.seq + 1, (Wire.route m).1, (Wire.route m).2, m⟩ : Event M) = event
  have hseq : event.seq = e.seq + 1 := by rw [← hevent]
  have hdue : event.due = e.now + d := by rw [← hevent]
  have hperm : (BinaryHeap.push earlier e.queue event).toList.Perm (event :: e.queue.toList) :=
    BinaryHeap.push_perm
  exact { h with
    heap := BinaryHeap.push_heap earlier_iff h.heap
    drained := by
      show e.books.drained = (e.books.letters ++ [(_ : Letter M)]).map (·.msg) ++ rest
      rw [h.drained]
      simp
    injected := fun name => by
      show e.injected name = (e.note m (.scheduled event)).letters.countP _
      rw [note_countP, h.injected]
      rfl
    named := fun l hl name hname => by
      rcases mem_note_letters hl with hl | rfl
      · exact h.named l hl name hname
      · cases hname
    numbered := by
      show (e.note m (.scheduled event)).scheduled.map (·.seq) = List.range' 1 (e.seq + 1)
      rw [note_scheduled, List.range'_1_concat, List.map_append, h.numbered]
      simp [Fate.event?, hseq, Nat.add_comm]
    places := by
      show (e.note m (.scheduled event)).scheduled.Perm
        ((BinaryHeap.push earlier e.queue event).toList ++ e.books.delivered ++ e.books.isolated)
      rw [note_scheduled]
      refine (List.perm_append_singleton event _).trans ((h.places.cons event).trans ?_)
      rw [← List.cons_append, ← List.cons_append]
      exact (hperm.symm.append_right _).append_right _
    timely := fun l hl ev hev => by
      rcases mem_note_letters hl with hl | rfl
      · exact h.timely l hl ev hev
      · obtain rfl : event = ev := by simpa using hev
        rw [← hevent]
        exact ⟨rfl, rfl, Nat.le_add_right _ _, Nat.add_le_add_left (h.delay ▸ hd) _⟩
    later := fun delivered hdelivered q hq => by
      rcases List.mem_cons.mp (hperm.mem_iff.mp hq) with rfl | hq
      · have hpast := h.past delivered hdelivered
        have hbound := h.seq_le (h.delivered_scheduled hdelivered)
        exact earlier_of_seq (by omega) (by omega)
      · exact h.later delivered hdelivered q hq }

/-- The least event leaves the queue and goes into the books. -/
theorem Sound.deliver {ev : Event M} {queue : Array (Event M)} {cluster : γ} {trace : List UInt8}
    (h : Sound c e []) (hpop : BinaryHeap.pop earlier e.queue = some (ev, queue))
    (hdue : ev.due ≤ e.now) :
    Sound c { e with
      queue := queue
      cluster := cluster
      trace := trace
      books := { e.books with deliveries := e.books.deliveries ++ [⟨e.now, ev.toID, ev⟩] } } [] := by
  have hperm : e.queue.toList.Perm (ev :: queue.toList) := BinaryHeap.pop_perm hpop
  have hev : ev ∈ e.queue.toList := hperm.mem_iff.mpr (List.mem_cons_self ..)
  have hlater : ∀ q ∈ queue.toList, earlier ev q = true := pop_earlier h.heap h.queue_nodup hpop
  have hdelivered : ∀ d,
      d ∈ (e.books.deliveries ++ [(⟨e.now, ev.toID, ev⟩ : Delivery M)]).map (·.event) →
      d ∈ e.books.delivered ∨ d = ev := by
    intro d hd
    simpa [Books.delivered] using hd
  exact { h with
    heap := (BinaryHeap.pop_heap earlier_iff h.heap hpop).1
    places := by
      show e.books.scheduled.Perm (queue.toList ++
        (e.books.deliveries ++ [(⟨e.now, ev.toID, ev⟩ : Delivery M)]).map (·.event) ++
          e.books.isolated)
      refine h.places.trans (List.Perm.append_right _ ?_)
      rw [List.map_append]
      refine (hperm.append_right _).trans ?_
      rw [← List.append_assoc]
      exact (List.perm_append_singleton ev _).symm
    routed := fun d hd => by
      rcases List.mem_append.mp hd with hd | hd
      · exact h.routed d hd
      · rw [List.mem_singleton.mp hd]
    ordered := by
      show ((e.books.deliveries ++ [(⟨e.now, ev.toID, ev⟩ : Delivery M)]).map
        (·.event)).Pairwise _
      rw [List.map_append]
      refine List.pairwise_append.mpr ⟨h.ordered, List.pairwise_singleton _ _, fun d hd q hq => ?_⟩
      rw [List.mem_singleton.mp hq]
      exact h.later d hd ev hev
    later := fun d hd q hq => by
      rcases hdelivered d hd with hd | rfl
      · exact h.later d hd q (hperm.mem_iff.mpr (List.mem_cons_of_mem _ hq))
      · exact hlater q hq
    past := fun d hd => by
      rcases hdelivered d hd with hd | rfl
      · exact h.past d hd
      · exact hdue }

/-- The messages of a node leave its buffer. -/
theorem Sound.drain {cluster : γ} (messages : List M) (h : Sound c e []) :
    Sound c { e with
      cluster := cluster
      books := { e.books with drained := e.books.drained ++ messages } } messages :=
  { h with
    drained := by
      show e.books.drained ++ messages = _
      rw [h.drained]
      simp }

theorem Sound.clock (h : Sound c e rest) : Sound c { e with now := e.now + 1 } rest :=
  { h with past := fun d hd => Nat.le_succ_of_le (h.past d hd) }

theorem Sound.isolate (node : Nat) (h : Sound c e []) : Sound c (e.isolate node).2 [] := by
  have hperm := isolate_perm node e
  exact { h with
    heap := BinaryHeap.rebuild_heap earlier_iff
    places := by
      show e.books.scheduled.Perm (_ ++ e.books.delivered ++
        (e.books.isolated ++ e.queue.toList.filter (Engine.touches node)))
      refine h.places.trans ?_
      have hsplit : e.queue.toList.Perm ((e.queue.toList.filter fun ev => !Engine.touches node ev) ++
          e.queue.toList.filter (Engine.touches node)) :=
        (List.filter_append_perm (Engine.touches node) e.queue.toList).symm.trans
          List.perm_append_comm
      refine ((hsplit.append_right _).append_right _).trans ?_
      simp only [List.append_assoc]
      refine List.Perm.append hperm.symm ?_
      rw [← List.append_assoc e.books.delivered]
      exact List.perm_append_comm
    later := fun d hd q hq =>
      h.later d hd q (List.mem_filter.mp (hperm.mem_iff.mp hq)).1 }

variable [Rand ρ]

theorem drawDelay_le {delay d : Nat} {rng rng' : ρ} (h : drawDelay delay rng = some (d, rng')) :
    d ≤ delay := by
  unfold drawDelay at h
  split at h
  · simp only at h
    split at h
    · cases h
    · rename_i hpos
      have hlt := Rand.int63n_lt rng (BitVec.ofNat 64 (delay + 1)).toInt.toNat (by omega)
      simp only [Option.some.injEq] at h
      rw [h] at hlt
      have hle : (BitVec.ofNat 64 (delay + 1)).toInt.toNat ≤ delay + 1 := by
        have htoNat : (BitVec.ofNat 64 (delay + 1)).toNat ≤ delay + 1 := by
          rw [BitVec.toNat_ofNat]
          exact Nat.mod_le _ _
        rw [BitVec.toInt_eq_toNat_cond]
        split
        · omega
        · omega
      omega
  · cases h
    exact Nat.zero_le _

theorem Sound.post (h : Sound c e (m :: rest)) (hpost : e.post m = some e') : Sound c e' rest := by
  cases Engine.post_eq_some.mp hpost with
  | lost => exact h.discard rfl (fun _ => rfl) nofun
  | @blocked rng rng' d _ _ hblocked =>
    refine h.discard rfl (fun name => ?_) fun name hname => ?_
    · simp only [Fate.isBlockedBy, decide_eq_true_eq]
      by_cases hname : name = e.blockedBy (Wire.route m).1 (Wire.route m).2 d
      · rw [hname, Function.update_self, if_pos rfl]
      · rw [Function.update_of_ne hname, if_neg (Ne.symm hname), Nat.add_zero]
    · obtain ⟨injector, hmem, heq⟩ := blockedBy_ne hblocked
      cases hname
      exact ⟨injector, hmem, heq⟩
  | scheduled _ hdelay => exact h.schedule (drawDelay_le hdelay)

theorem foldlM_post (messages : List M) (h : Sound c e (messages ++ rest))
    (hfold : messages.foldlM Engine.post e = some e') : Sound c e' rest := by
  induction messages generalizing e with
  | nil =>
    cases hfold
    exact h
  | cons m messages ih =>
    rw [List.foldlM_cons] at hfold
    obtain ⟨e₁, hpost, hfold⟩ := Option.bind_eq_some_iff.mp hfold
    exact ih (h.post hpost) hfold

variable [Cluster γ M]

theorem Sound.collectNode {id : Nat} (h : Sound c e []) (hc : e.collectNode id = some e') :
    Sound c e' [] := by
  unfold Engine.collectNode at hc
  obtain ⟨⟨scratch, cluster⟩, _, hfold⟩ := Option.bind_eq_some_iff.mp hc
  exact foldlM_post scratch ((List.append_nil scratch).symm ▸ h.drain scratch) hfold

theorem Sound.collect (h : Sound c e []) (hc : e.collect = some e') : Sound c e' [] :=
  foldlM_induction (fun _ _ _ => Sound.collectNode) h hc

variable {sha256 : List UInt8 → List UInt8}

theorem Sound.dispatch {ev : Event M} {queue : Array (Event M)} (h : Sound c e [])
    (hpop : BinaryHeap.pop earlier e.queue = some (ev, queue)) (hdue : ev.due ≤ e.now)
    (hd : ({ e with queue := queue } : Engine γ M ρ).dispatch sha256 ev = some e') :
    Sound c e' [] := by
  unfold Engine.dispatch at hd
  obtain ⟨cluster, _, hcollect⟩ := Option.bind_eq_some_iff.mp hd
  exact (h.deliver hpop hdue).collect hcollect

/-- When the loop ends, nothing that is pending is due. -/
theorem Sound.deliverDue {rounds : Nat} (h : Sound c e [])
    (hd : e.deliverDue sha256 rounds = some e') :
    Sound c e' [] ∧ ∀ q ∈ e'.queue.toList, e'.now < q.due := by
  induction rounds generalizing e with
  | zero => cases hd
  | succ rounds ih =>
    rcases Engine.deliverDue_cases hd with ⟨rfl, hroot⟩ | ⟨ev, queue, e₁, hpop, hdue, hdispatch, hd⟩
    · exact ⟨h, none_due h.heap hroot⟩
    · exact ih (h.dispatch hpop hdue hdispatch) hd

theorem Sound.step {rounds : Nat} (h : Sound c e []) (hs : e.step sha256 rounds = some e') :
    Sound c e' [] ∧ ∀ q ∈ e'.queue.toList, e'.now < q.due := by
  unfold Engine.step at hs
  obtain ⟨e₁, hticks, hs⟩ := Option.bind_eq_some_iff.mp hs
  obtain ⟨e₂, hcollect, hs⟩ := Option.bind_eq_some_iff.mp hs
  have htick : ∀ (s : Engine γ M ρ) (id : Nat) (s' : Engine γ M ρ),
      Sound c s [] → s.tick id = some s' → Sound c s' [] := by
    intro s id s' hs ht
    obtain ⟨cluster, _, ht⟩ := Option.bind_eq_some_iff.mp ht
    cases ht
    exact { hs with }
  have hticked : Sound c e₁ [] := foldlM_induction htick h.clock hticks
  exact (hticked.collect hcollect).deliverDue hs

theorem Sound.exec {call : Engine.Call γ} (h : Sound c e []) (hc : e.exec sha256 call = some e') :
    Sound c e' [] := by
  cases call with
  | step rounds => exact (h.step hc).1
  | collect => exact h.collect hc
  | isolate node =>
    cases hc
    exact h.isolate node
  | inject injectors =>
    cases hc
    exact { h with
      named := fun l hl name hname => by
        obtain ⟨injector, hmem, heq⟩ := h.named l hl name hname
        exact ⟨injector, List.mem_append_left _ hmem, heq⟩ }
  | drive action =>
    cases hc
    exact { h with }

theorem Sound.run {calls : List (Engine.Call γ)} (h : Sound c e [])
    (hr : e.run sha256 calls = some e') : Sound c e' [] :=
  foldlM_induction (fun _ _ _ => Sound.exec) h hr

end Steps

/-! ## Every script -/

section Scripts

variable [Cluster γ M] [Wire M] [Rand ρ]

end Scripts

/-! ## The ring -/

/-- Each node sends to its successor every `period` ticks. -/
structure Ring where
  count : Nat
  period : Nat
  ticks : Nat → Nat := fun _ => 0
  sent : Nat → Nat := fun _ => 0
  received : Nat → Nat := fun _ => 0
  outbound : Nat → List (Nat × Nat × Nat) := fun _ => []

open Function (update)

instance : Cluster Ring (Nat × Nat × Nat) where
  nodes r := List.range' 1 r.count
  tick id r :=
    let r := { r with ticks := update r.ticks id (r.ticks id + 1) }
    if r.ticks id % r.period ≠ 0 then some r
    else
      let sent := r.sent id + 1
      some { r with
        sent := update r.sent id sent
        outbound := update r.outbound id (r.outbound id ++ [(id, id % r.count + 1, sent)]) }
  deliver id _ r := some { r with received := update r.received id (r.received id + 1) }
  drain id r := some (r.outbound id, { r with outbound := update r.outbound id [] })

instance : Wire (Nat × Nat × Nat) where
  route m := (m.1, m.2.1)
  digest m := (1, m.2.2)

/-- A stream that counts. -/
structure Counter where
  position : Nat

instance : Rand Counter where
  intn rng n := (rng.position * 389 % n, ⟨rng.position + 1⟩)
  int63n rng n := (rng.position * 3 % n, ⟨rng.position + 1⟩)
  int63n_lt _ _ hn := Nat.mod_lt _ hn

/-- A link is down and a node is isolated. -/
def ringScript : List (Engine.Call Ring) :=
  [.inject [⟨"link", fun _ fromID toID _ => fromID ≠ 1 || toID ≠ 2⟩], .step 9, .step 9, .step 9,
    .isolate 3, .collect, .step 9]

def ringEngine : Engine Ring (Nat × Nat × Nat) Counter := .new ⟨300, 4⟩ ⟨2⟩
  { count := 4, period := 1 }

end Promtact.Dst
