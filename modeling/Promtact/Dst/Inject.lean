import Promtact.Dst.Conservation

/-!
# Injected faults

The faults of `inject.go`, and what the engine makes of what they say. The engine asks every
registered injector in turn, and keeps the name of the first that denies the message. An empty
name stands for "allowed", so an injector without a name does not drop anything, and hides
every injector behind it (`unnamed_fault_drops_nothing`). The faults of the package all have
names; with these, a message is dropped and counted exactly if some injector denies it.
-/

namespace Promtact.Dst

open Function (update)

/-! ## The faults of the package -/

/-- A list of IDs as it is printed. -/
def showIDs (ids : List Nat) : String := "[" ++ " ".intercalate (ids.map toString) ++ "]"

namespace Injector

/-- A partition: what crosses between the two groups is dropped. -/
def split (a b : List Nat) : Injector where
  name := "split" ++ showIDs a ++ "|" ++ showIDs b
  allow _ fromID toID _ :=
    !(a.contains fromID && b.contains toID) && !(b.contains fromID && a.contains toID)

/-- Hosts that are unreachable. -/
def isolate (nodes : List Nat) : Injector where
  name := "isolate" ++ showIDs nodes
  allow _ fromID toID _ := !nodes.contains fromID && !nodes.contains toID

/-- A link that fails in one direction. -/
def link (source target : Nat) : Injector where
  name := "link" ++ toString source ++ "->" ++ toString target
  allow _ fromID toID _ := fromID ≠ source || toID ≠ target

/-- An injector that works from `start` up to `stop`. -/
def during (start stop : Nat) (inner : Injector) : Injector where
  name := inner.name ++ "@[" ++ toString start ++ "," ++ toString stop ++ ")"
  allow now fromID toID delay :=
    if now < start ∨ now ≥ stop then true else inner.allow now fromID toID delay

/-- The injector has a name. -/
def Named (injector : Injector) : Prop := injector.name ≠ ""

instance (injector : Injector) : Decidable injector.Named := by
  unfold Named
  infer_instance

theorem append_ne_empty {front back : String} (h : back ≠ "") : front ++ back ≠ "" := by
  intro heq
  exact h (String.append_eq_empty_iff.mp heq).2

/-- Every fault of the package has a name, whatever it is made of. -/
theorem named_of_package :
    (∀ a b, (split a b).Named) ∧ (∀ nodes, (isolate nodes).Named) ∧
    (∀ source target, (link source target).Named) ∧
    ∀ start stop inner, (during start stop inner).Named := by
  have hshow : ∀ ids, showIDs ids ≠ "" := fun ids => append_ne_empty (by decide)
  refine ⟨fun a b => append_ne_empty (hshow b), fun nodes => append_ne_empty (hshow nodes),
    fun source target => ?_, fun start stop inner => append_ne_empty (by decide)⟩
  intro heq
  have hfront := (String.append_eq_empty_iff.mp heq).1
  exact append_ne_empty (by decide) hfront

end Injector

/-! ## What the engine makes of them -/

variable {γ M ρ : Type}

/-- Some injector of the list denies the message. -/
def Denied (injectors : List Injector) (sent fromID toID delay : Nat) : Prop :=
  ∃ injector ∈ injectors, injector.allow sent fromID toID delay = false

instance (injectors : List Injector) (sent fromID toID delay : Nat) :
    Decidable (Denied injectors sent fromID toID delay) := by
  unfold Denied
  infer_instance

theorem not_denied {injectors : List Injector} {sent fromID toID delay : Nat} :
    ¬ Denied injectors sent fromID toID delay ↔
      ∀ injector ∈ injectors, injector.allow sent fromID toID delay = true := by
  simp [Denied]

theorem Denied.mono {some all : List Injector} {sent fromID toID delay : Nat} (hsub : some ⊆ all)
    (h : Denied some sent fromID toID delay) : Denied all sent fromID toID delay := by
  obtain ⟨injector, hmem, hdenies⟩ := h
  exact ⟨injector, hsub hmem, hdenies⟩

section Named

variable {e e' : Engine γ M ρ}

/-- Among injectors with names, an empty answer means that all of them allow the message. -/
theorem blockedBy_eq_empty (hnamed : ∀ injector ∈ e.injectors, injector.Named)
    (fromID toID delay : Nat) :
    e.blockedBy fromID toID delay = "" ↔ ¬ Denied e.injectors e.now fromID toID delay := by
  rw [not_denied]
  unfold Engine.blockedBy
  cases hfind : e.injectors.find? fun injector => !injector.allow e.now fromID toID delay with
  | none =>
    refine ⟨fun _ injector hmem => ?_, fun _ => rfl⟩
    simpa using List.find?_eq_none.mp hfind injector hmem
  | some injector =>
    have hmem := List.mem_of_find?_eq_some hfind
    have hdenies := List.find?_some hfind
    refine ⟨fun hname => absurd hname (hnamed injector hmem), fun hall => ?_⟩
    rw [hall injector hmem] at hdenies
    cases hdenies

variable [Wire M] [Rand ρ] {m : M}

/-- One message that is not lost: it is dropped and counted, or it is queued. -/
theorem post_named (hnamed : ∀ injector ∈ e.injectors, injector.Named) {rng rng' : ρ} {d : Nat}
    (hloss : drawLoss e.drop e.rng = (false, rng)) (hdelay : drawDelay e.delay rng = some (d, rng')) :
    (Denied e.injectors e.now (Wire.route m).1 (Wire.route m).2 d →
      ∃ e' name, e.post m = some e' ∧ e'.queue = e.queue ∧
        e'.books.deliveries = e.books.deliveries ∧
        e'.books.letters = e.books.letters ++ [⟨m, e.now, .blocked name⟩] ∧
        e'.injected = update e.injected name (e.injected name + 1)) ∧
    (¬ Denied e.injectors e.now (Wire.route m).1 (Wire.route m).2 d →
      ∃ e' ev, e.post m = some e' ∧ ev.msg = m ∧ ev.due = e.now + d ∧
        e'.queue.toList.Perm (ev :: e.queue.toList) ∧
        e'.books.letters = e.books.letters ++ [⟨m, e.now, .scheduled ev⟩] ∧
        e'.injected = e.injected) := by
  have hempty := blockedBy_eq_empty hnamed (Wire.route m).1 (Wire.route m).2 d
  constructor
  · intro hdenied
    have hblocked : e.blockedBy (Wire.route m).1 (Wire.route m).2 d ≠ "" :=
      fun heq => hempty.mp heq hdenied
    exact ⟨_, _, Engine.post_eq_some.mpr (.blocked hloss hdelay hblocked), rfl, rfl, rfl, rfl⟩
  · intro hallowed
    exact ⟨_, _, Engine.post_eq_some.mpr (.scheduled hloss hdelay (hempty.mpr hallowed)), rfl, rfl,
      BinaryHeap.push_perm, rfl, rfl⟩

end Named

/-! ## Whole runs -/

section Runs

variable {e e' : Engine γ M ρ} {injectors : List Injector} {old : List (Letter M)}

/-- A letter that was scheduled is one that all the injectors allow. -/
def Letter.Allowed (injectors : List Injector) (l : Letter M) : Prop :=
  ∀ ev, l.fate = .scheduled ev →
    ¬ Denied injectors l.sent ev.fromID ev.toID (ev.due - l.sent)

instance (injectors : List Injector) (l : Letter M) : Decidable (l.Allowed injectors) :=
  match hfate : l.fate with
  | .lost => isTrue fun _ hev => nomatch hfate.symm.trans hev
  | .blocked _ => isTrue fun _ hev => nomatch hfate.symm.trans hev
  | .scheduled ev =>
    decidable_of_iff (¬ Denied injectors l.sent ev.fromID ev.toID (ev.due - l.sent))
      ⟨fun h _ hev => Fate.scheduled.inj (hfate.symm.trans hev) ▸ h, fun h => h ev hfate⟩

/-- What holds from a moment on at which the letters were `old` and the injectors `injectors`:
both only grow, all injectors have names, and no letter is scheduled that one of these
injectors denies. -/
structure Guarded (injectors : List Injector) (old : List (Letter M)) (e : Engine γ M ρ) : Prop where
  named : ∀ injector ∈ e.injectors, injector.Named
  registered : injectors ⊆ e.injectors
  letters : ∃ added, e.books.letters = old ++ added ∧ ∀ l ∈ added, l.Allowed injectors

theorem Guarded.add {letter : Letter M} (h : Guarded injectors old e)
    (hinjectors : e'.injectors = e.injectors) (hletters : e'.books.letters = e.books.letters ++ [letter])
    (hallowed : letter.Allowed injectors) : Guarded injectors old e' where
  named := by
    rw [hinjectors]
    exact h.named
  registered := by
    rw [hinjectors]
    exact h.registered
  letters := by
    obtain ⟨added, hadded, hall⟩ := h.letters
    refine ⟨added ++ [letter], by rw [hletters, hadded, List.append_assoc], fun l hl => ?_⟩
    rcases List.mem_append.mp hl with hl | hl
    · exact hall l hl
    · rw [List.mem_singleton.mp hl]
      exact hallowed

variable [Wire M] [Rand ρ] {P : Engine γ M ρ → Prop}

/-- What the time, the delay, the injectors and the letters decide, and every posted message keeps. -/
structure Posting (P : Engine γ M ρ → Prop) : Prop where
  frame : ∀ {e e' : Engine γ M ρ}, e'.now = e.now → e'.delay = e.delay →
    e'.injectors = e.injectors → e'.books.letters = e.books.letters → P e → P e'
  post : ∀ {e : Engine γ M ρ} {m e'}, P e → e.post m = some e' → P e'

theorem guarded_posting (injectors : List Injector) (old : List (Letter M)) :
    Posting (Guarded injectors old : Engine γ M ρ → Prop) where
  frame _ _ hinjectors hletters h :=
    ⟨hinjectors ▸ h.named, hinjectors ▸ h.registered, hletters ▸ h.letters⟩
  post {e m e'} h hpost := by
    cases Engine.post_eq_some.mp hpost with
    | lost => exact h.add rfl rfl nofun
    | blocked => exact h.add rfl rfl nofun
    | @scheduled rng rng' d _ _ hblocked =>
      refine h.add rfl rfl fun ev hev hdenied => ?_
      cases hev
      refine (blockedBy_eq_empty h.named _ _ _).mp hblocked (Denied.mono h.registered ?_)
      simpa using hdenied

variable [Cluster γ M] {sha256 : List UInt8 → List UInt8}

namespace Posting

theorem collectNode {id : Nat} (hP : Posting P) (h : P e) (hc : e.collectNode id = some e') :
    P e' := by
  unfold Engine.collectNode at hc
  obtain ⟨⟨scratch, cluster⟩, _, hfold⟩ := Option.bind_eq_some_iff.mp hc
  refine foldlM_induction (fun _ _ _ => hP.post) ?_ hfold
  exact hP.frame (e := e) rfl rfl rfl rfl h

theorem collect (hP : Posting P) (h : P e) (hc : e.collect = some e') : P e' :=
  foldlM_induction (fun _ _ _ => hP.collectNode) h hc

theorem deliverDue {rounds : Nat} (hP : Posting P) (h : P e)
    (hd : e.deliverDue sha256 rounds = some e') : P e' := by
  induction rounds generalizing e with
  | zero => cases hd
  | succ rounds ih =>
    rcases Engine.deliverDue_cases hd with ⟨rfl, _⟩ | ⟨ev, queue, e₁, _, _, hdispatch, hd⟩
    · exact h
    · unfold Engine.dispatch at hdispatch
      obtain ⟨cluster, _, hc⟩ := Option.bind_eq_some_iff.mp hdispatch
      refine ih (hP.collect ?_ hc) hd
      exact hP.frame (e := e) rfl rfl rfl rfl h

/-- A step needs the property at the time it moves to. -/
theorem step {rounds : Nat} (hP : Posting P) (h : P { e with now := e.now + 1 })
    (hs : e.step sha256 rounds = some e') : P e' := by
  unfold Engine.step at hs
  obtain ⟨e₁, hticks, hs⟩ := Option.bind_eq_some_iff.mp hs
  obtain ⟨e₂, hc, hs⟩ := Option.bind_eq_some_iff.mp hs
  have htick : ∀ (s : Engine γ M ρ) (id : Nat) (s' : Engine γ M ρ),
      P s → s.tick id = some s' → P s' := by
    intro s id s' hs ht
    obtain ⟨cluster, _, ht⟩ := Option.bind_eq_some_iff.mp ht
    cases ht
    exact hP.frame (e := s) rfl rfl rfl rfl hs
  exact hP.deliverDue (hP.collect (foldlM_induction htick h hticks) hc) hs

end Posting

/-- A call that registers injectors registers some with names. -/
def Engine.Call.Named : Engine.Call γ → Prop
  | .inject injectors => ∀ injector ∈ injectors, injector.Named
  | _ => True

theorem Guarded.exec {call : Engine.Call γ} (h : Guarded injectors old e) (hcall : call.Named)
    (hexec : e.exec sha256 call = some e') : Guarded injectors old e' := by
  have hP : Posting (Guarded injectors old : Engine γ M ρ → Prop) := guarded_posting _ _
  cases call with
  | step rounds => exact hP.step ⟨h.named, h.registered, h.letters⟩ hexec
  | collect => exact hP.collect h hexec
  | isolate node =>
    cases hexec
    exact hP.frame (e := e) rfl rfl rfl rfl h
  | inject more =>
    cases hexec
    refine ⟨fun injector hmem => ?_, fun injector hmem => ?_, h.letters⟩
    · rcases List.mem_append.mp hmem with hmem | hmem
      · exact h.named injector hmem
      · exact hcall injector hmem
    · exact List.mem_append_left _ (h.registered hmem)
  | drive action =>
    cases hexec
    exact hP.frame (e := e) rfl rfl rfl rfl h

theorem Guarded.run {calls : List (Engine.Call γ)} (h : Guarded injectors old e)
    (hcalls : ∀ call ∈ calls, call.Named) (hrun : e.run sha256 calls = some e') :
    Guarded injectors old e' := by
  induction calls generalizing e with
  | nil =>
    cases hrun
    exact h
  | cons call calls ih =>
    obtain ⟨e₁, hexec, hrun⟩ := Option.bind_eq_some_iff.mp hrun
    exact ih (h.exec (hcalls call List.mem_cons_self) hexec)
      (fun call' hmem => hcalls call' (List.mem_cons_of_mem call hmem)) hrun

/-- In every run whose registered injectors have names, and from every moment of it on:
a message that is not lost and that a registered injector denies for its time, its
route and its delay stays out of the queue and is counted, and one that all of them
allow is queued. So all that is scheduled later, and with it all that is then pending,
delivered or isolated, was allowed, and the counts are those of the blocked messages. -/
theorem denied_never_delivered (sha256 : List UInt8 → List UInt8) (c : Config) (rng : ρ)
    (cluster : γ) (calls : List (Engine.Call γ)) (e₀ : Engine γ M ρ)
    (hcalls : ∀ call ∈ calls, call.Named)
    (hrun : (Engine.new c rng cluster : Engine γ M ρ).run sha256 calls = some e₀) :
    (∀ (e : Engine γ M ρ) (m : M) (rng rng' : ρ) (d : Nat), e.injectors = e₀.injectors →
      drawLoss e.drop e.rng = (false, rng) → drawDelay e.delay rng = some (d, rng') →
      (Denied e.injectors e.now (Wire.route m).1 (Wire.route m).2 d →
        ∃ e' name, e.post m = some e' ∧ e'.queue = e.queue ∧
          e'.books.deliveries = e.books.deliveries ∧
          e'.books.letters = e.books.letters ++ [⟨m, e.now, .blocked name⟩] ∧
          e'.injected = update e.injected name (e.injected name + 1)) ∧
      (¬ Denied e.injectors e.now (Wire.route m).1 (Wire.route m).2 d →
        ∃ e' ev, e.post m = some e' ∧ ev.msg = m ∧ ev.due = e.now + d ∧
          e'.queue.toList.Perm (ev :: e.queue.toList) ∧
          e'.books.letters = e.books.letters ++ [⟨m, e.now, .scheduled ev⟩] ∧
          e'.injected = e.injected)) ∧
    ∀ (more : List (Engine.Call γ)) (e : Engine γ M ρ), (∀ call ∈ more, call.Named) →
      e₀.run sha256 more = some e →
      ∃ added, e.books.letters = e₀.books.letters ++ added ∧
        (∀ l ∈ added, ∀ ev, l.fate = .scheduled ev →
          ∀ injector ∈ e₀.injectors,
            injector.allow l.sent ev.fromID ev.toID (ev.due - l.sent) = true) ∧
        e.books.scheduled.Perm (e.queue.toList ++ e.books.delivered ++ e.books.isolated) ∧
        ∀ name, e.injected name = e.books.letters.countP (·.fate.isBlockedBy name) := by
  have hstart : Guarded [] [] (Engine.new c rng cluster : Engine γ M ρ) :=
    ⟨nofun, List.nil_subset _, [], rfl, nofun⟩
  have hnamed : ∀ injector ∈ e₀.injectors, injector.Named := (hstart.run hcalls hrun).named
  refine ⟨fun e m rng rng' d hinjectors hloss hdelay => ?_, fun more e hmore hrest => ?_⟩
  · exact post_named (fun injector hmem => hnamed injector (hinjectors ▸ hmem)) hloss hdelay
  · have hsound : Sound c e [] := ((new_sound rng cluster).run hrun).run hrest
    have hguard : Guarded e₀.injectors e₀.books.letters e₀ :=
      ⟨hnamed, List.Subset.refl _, [], (List.append_nil _).symm, nofun⟩
    obtain ⟨added, hadded, hall⟩ := (hguard.run hmore hrest).letters
    exact ⟨added, hadded, fun l hl ev hev => not_denied.mp (hall l hl ev hev), hsound.places,
      hsound.injected⟩

end Runs

/-! ## On the ring -/

/-- A ring without loss. -/
def quietRing : Engine Ring (Nat × Nat × Nat) Counter := .new ⟨0, 3⟩ ⟨1⟩ { count := 4, period := 1 }

/-- A partition cuts the ring twice, and an engine that runs on keeps to it. -/
theorem denied_never_delivered_split :
    ∃ e₀ e, quietRing.run id [.step 9, .inject [Injector.split [1, 2] [3, 4]]] = some e₀ ∧
      e₀.run id [.step 9, .step 9] = some e ∧ e.injected "split[1 2]|[3 4]" = 4 ∧
      ∃ added, e.books.letters = e₀.books.letters ++ added ∧
        ∀ l ∈ added, ∀ ev, l.fate = .scheduled ev → ∀ injector ∈ e₀.injectors,
          injector.allow l.sent ev.fromID ev.toID (ev.due - l.sent) = true := by
  have hcalls : ∀ call ∈ ([.step 9, .inject [Injector.split [1, 2] [3, 4]]] :
      List (Engine.Call Ring)), call.Named := by
    intro call hmem
    rcases List.mem_cons.mp hmem with rfl | hmem
    · trivial
    · rw [List.mem_singleton.mp hmem]
      intro injector hinjector
      rw [List.mem_singleton.mp hinjector]
      exact Injector.named_of_package.1 _ _
  have hsome : (quietRing.run id [.step 9, .inject [Injector.split [1, 2] [3, 4]]]).isSome = true := by
    decide +kernel
  obtain ⟨e₀, hrun⟩ := Option.isSome_iff_exists.mp hsome
  have hcount : ((quietRing.run id [.step 9, .inject [Injector.split [1, 2] [3, 4]]]).bind
      fun e₀ => (e₀.run id [.step 9, .step 9]).map (·.injected "split[1 2]|[3 4]")) = some 4 := by
    decide +kernel
  rw [hrun, Option.bind_some] at hcount
  obtain ⟨e, hrest, hcount⟩ := Option.map_eq_some_iff.mp hcount
  obtain ⟨added, hadded, hall, -⟩ := (denied_never_delivered id _ _ _ _ e₀ hcalls hrun).2
    [.step 9, .step 9] e (by simp [Engine.Call.Named]) hrest
  exact ⟨e₀, e, hrun, hrest, hcount, added, hadded, hall⟩

/-- A fault that denies everything. -/
def blackout (name : String) : Injector := ⟨name, fun _ _ _ _ => false⟩

/-- With an empty name the blackout drops nothing and hides the named one behind it:
messages arrive and no drop is counted. -/
theorem unnamed_fault_drops_nothing :
    ∃ e, quietRing.run id [.inject [blackout "", blackout "power"], .step 9, .step 9] = some e ∧
      e.books.deliveries ≠ [] ∧ ∀ name, e.injected name = 0 := by
  have hrun : (quietRing.run id [.inject [blackout "", blackout "power"], .step 9, .step 9]).map
      (fun e => (e.books.deliveries.length, e.books.letters.all (·.fate.event?.isSome))) =
        some (3, true) := by
    decide +kernel
  obtain ⟨e, he, hbooks⟩ := Option.map_eq_some_iff.mp hrun
  obtain ⟨hdelivered, hscheduled⟩ := Prod.mk.inj hbooks
  have hsound : Sound ⟨0, 3⟩ e [] := (new_sound _ _).run he
  refine ⟨e, he, ?_, fun name => ?_⟩
  · intro hnone
    rw [hnone] at hdelivered
    cases hdelivered
  · rw [hsound.injected, List.countP_eq_zero]
    intro l hl hblocked
    have hfate := List.all_eq_true.mp hscheduled l hl
    cases hl : l.fate with
    | lost => rw [hl] at hfate; cases hfate
    | blocked => rw [hl] at hfate; cases hfate
    | scheduled => rw [hl] at hblocked; cases hblocked

end Promtact.Dst
