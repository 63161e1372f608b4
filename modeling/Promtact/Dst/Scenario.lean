import Promtact.Dst.Inject

/-!
# Scenarios

A scenario file describes one run: `validate` checks it, `engineConfig` and `injectors` turn it
into an engine with its faults. What is accepted is well formed (`validate_eq_ok`), and all its
faults can be built and have names, so that they drop what they deny.

The delay is not checked. The engine adds one to it and reads the sum as a signed word before it
draws, so a delay of `2 ^ 63 - 1` or more is accepted and panics at the first message
(`validated_delay_panics`); and a due time that does not fit in a word would wrap. Below these
bounds the arithmetic of a run is that of the numbers (`validated_run_in_range`).
-/

namespace Promtact.Dst

/-! ## The file -/

/-- One declared fault. A window that ends at zero is the whole run. -/
structure Fault where
  type : String
  a : List Nat := []
  b : List Nat := []
  nodes : List Nat := []
  fromID : Nat := 0
  toID : Nat := 0
  start : Nat := 0
  stop : Nat := 0

structure Scenario where
  seed : String
  nodes : Int
  steps : UInt64
  dropPermille : Int := 0
  maxDelay : UInt64 := 0
  faults : List Fault := []

def maxNodes : Int := 64

/-- A check that returns an error. -/
def refuseIf (bad : Prop) [Decidable bad] (err : String) : Except String Unit :=
  if bad then .error err else .ok ()

/-- A loop over the faults that stops at the first error, and says which fault it is. -/
def eachFault {β : Type} (f : Fault → Except String β) : Nat → List Fault → Except String (List β)
  | _, [] => .ok []
  | i, fault :: faults => do
    let x ← (f fault).mapError fun err => "scenario: fault " ++ toString i ++ ": " ++ err
    let xs ← eachFault f (i + 1) faults
    return x :: xs

namespace Fault

def checkLoop (nodes : Int) (field : String) : List Nat → List Nat → Except String Unit
  | _, [] => .ok ()
  | seen, id :: ids => do
    refuseIf (id < 1 ∨ (id : Int) > nodes)
      (field ++ " names node " ++ toString id ++ ", outside 1.." ++ toString nodes)
    refuseIf (id ∈ seen) (field ++ " names node " ++ toString id ++ " twice")
    checkLoop nodes field (id :: seen) ids

/-- The IDs are not empty, in range and different. -/
def check (nodes : Int) (field : String) (ids : List Nat) : Except String Unit := do
  refuseIf (ids = []) (field ++ " must list at least one node")
  checkLoop nodes field [] ids

variable (quote : String → String)

def validate (nodes : Int) (f : Fault) : Except String Unit := do
  refuseIf (f.stop ≠ 0 ∧ f.stop ≤ f.start)
    ("window end " ++ toString f.stop ++ " must be after start " ++ toString f.start)
  if f.type = "split" then
    check nodes "a" f.a
    check nodes "b" f.b
    match f.a.find? (· ∈ f.b) with
    | some id => .error ("node " ++ toString id ++ " appears on both sides of the split")
    | none => .ok ()
  else if f.type = "isolate" then
    check nodes "nodes" f.nodes
  else if f.type = "link" then
    check nodes "from" [f.fromID]
    check nodes "to" [f.toID]
    refuseIf (f.fromID = f.toID)
      ("a link failure needs two distinct nodes, got " ++ toString f.fromID ++ " twice")
  else .error ("unknown type " ++ quote f.type)

/-- The fault without its window. -/
def buildType (f : Fault) : Except String Injector :=
  if f.type = "split" then .ok (Injector.split f.a f.b)
  else if f.type = "isolate" then .ok (Injector.isolate f.nodes)
  else if f.type = "link" then .ok (Injector.link f.fromID f.toID)
  else .error ("unknown type " ++ quote f.type)

def build (f : Fault) : Except String Injector := do
  let injector ← f.buildType quote
  return if f.stop ≠ 0 then Injector.during f.start f.stop injector else injector

end Fault

namespace Scenario

variable (parseInt : String → Option Int) (quote : String → String)

/-- The seed, read by `parseInt`. -/
def parsedSeed (s : Scenario) : Except String Int :=
  match parseInt s.seed with
  | some seed => .ok seed
  | none => .error ("scenario: invalid seed " ++ quote s.seed)

/-- The configuration of the engine; the seed goes into its random stream. -/
def engineConfig (s : Scenario) : Except String (Int × Config) := do
  let seed ← s.parsedSeed parseInt quote
  return (seed, ⟨s.dropPermille, s.maxDelay.toNat⟩)

def injectors (s : Scenario) : Except String (List Injector) :=
  eachFault (Fault.build quote) 0 s.faults

def validate (s : Scenario) : Except String Unit := do
  let _ ← s.parsedSeed parseInt quote
  refuseIf (s.nodes < 1 ∨ s.nodes > maxNodes)
    ("scenario: nodes must be between 1 and " ++ toString maxNodes ++ ", got " ++ toString s.nodes)
  refuseIf (s.steps < 1) ("scenario: steps must be positive, got " ++ toString s.steps)
  refuseIf (s.dropPermille < 0 ∨ s.dropPermille > 1000)
    ("scenario: dropPermille must be between 0 and 1000, got " ++ toString s.dropPermille)
  let _ ← eachFault (Fault.validate quote s.nodes) 0 s.faults

end Scenario

/-! ## What is accepted -/

section Accepted

theorem bind_ok {ε α β : Type} {x : Except ε α} {f : α → Except ε β} {b : β} :
    (x >>= f) = .ok b ↔ ∃ a, x = .ok a ∧ f a = .ok b := by
  cases x with
  | error err => exact iff_of_false nofun nofun
  | ok a => simp [bind, Except.bind]

theorem refuseIf_eq_ok {bad : Prop} [Decidable bad] {err : String} {u : Unit} :
    refuseIf bad err = .ok u ↔ ¬ bad := by
  unfold refuseIf
  split
  · exact iff_of_false nofun (not_not.mpr ‹_›)
  · exact iff_of_true rfl ‹_›

theorem eachFault_eq_ok {β : Type} {f : Fault → Except String β} {i : Nat} {faults : List Fault} :
    (∃ xs, eachFault f i faults = .ok xs) ↔ ∀ fault ∈ faults, ∃ x, f fault = .ok x := by
  induction faults generalizing i with
  | nil => exact iff_of_true ⟨[], rfl⟩ nofun
  | cons fault faults ih =>
    rw [List.forall_mem_cons, ← @ih (i + 1)]
    cases hf : f fault with
    | error err => simp [eachFault, hf, Except.mapError, bind, Except.bind]
    | ok x =>
      cases hrest : eachFault f (i + 1) faults with
      | error err => simp [eachFault, hf, hrest, Except.mapError, bind, Except.bind]
      | ok xs => simp [eachFault, hf, hrest, Except.mapError, bind, Except.bind, pure, Except.pure]

theorem mem_eachFault {β : Type} {f : Fault → Except String β} {i : Nat} {faults : List Fault}
    {xs : List β} {x : β} (h : eachFault f i faults = .ok xs) (hx : x ∈ xs) :
    ∃ fault ∈ faults, f fault = .ok x := by
  induction faults generalizing i xs with
  | nil =>
    cases h
    cases hx
  | cons fault faults ih =>
    obtain ⟨y, hy, h⟩ := bind_ok.mp h
    obtain ⟨ys, hys, h⟩ := bind_ok.mp h
    cases h
    rcases List.mem_cons.mp hx with rfl | hx
    · refine ⟨fault, List.mem_cons_self, ?_⟩
      cases hf : f fault with
      | error err => rw [hf] at hy; cases hy
      | ok x' => rw [hf] at hy; exact hy
    · obtain ⟨fault', hmem, hf⟩ := ih hys hx
      exact ⟨fault', List.mem_cons_of_mem fault hmem, hf⟩

/-- The IDs are those of different nodes of the cluster. -/
structure NodeList (nodes : Int) (ids : List Nat) : Prop where
  range : ∀ id ∈ ids, 1 ≤ id ∧ (id : Int) ≤ nodes
  nodup : ids.Nodup

theorem checkLoop_eq_ok {nodes : Int} {field : String} {seen ids : List Nat} {u : Unit} :
    Fault.checkLoop nodes field seen ids = .ok u ↔
      NodeList nodes ids ∧ ∀ id ∈ ids, id ∉ seen := by
  induction ids generalizing seen with
  | nil => exact iff_of_true rfl ⟨⟨nofun, List.nodup_nil⟩, nofun⟩
  | cons id ids ih =>
    simp only [Fault.checkLoop, bind_ok, refuseIf_eq_ok, ih, exists_const]
    constructor
    · rintro ⟨hrange, hnew, ⟨hids, hnodup⟩, hrest⟩
      refine ⟨⟨?_, ?_⟩, ?_⟩
      · intro other hother
        rcases List.mem_cons.mp hother with rfl | hother
        · omega
        · exact hids other hother
      · exact List.nodup_cons.mpr ⟨fun hmem => hrest id hmem List.mem_cons_self, hnodup⟩
      · intro other hother
        rcases List.mem_cons.mp hother with rfl | hother
        · exact hnew
        · exact fun hseen => hrest other hother (List.mem_cons_of_mem id hseen)
    · rintro ⟨⟨hids, hnodup⟩, hrest⟩
      obtain ⟨hnot, hnodup⟩ := List.nodup_cons.mp hnodup
      refine ⟨?_, hrest id List.mem_cons_self,
        ⟨fun other hother => hids other (List.mem_cons_of_mem id hother), hnodup⟩, ?_⟩
      · have hid := hids id List.mem_cons_self
        omega
      · intro other hother hseen
        rcases List.mem_cons.mp hseen with rfl | hseen
        · exact hnot hother
        · exact hrest other (List.mem_cons_of_mem id hother) hseen

theorem check_eq_ok {nodes : Int} {field : String} {ids : List Nat} {u : Unit} :
    Fault.check nodes field ids = .ok u ↔ ids ≠ [] ∧ NodeList nodes ids := by
  simp [Fault.check, bind_ok, refuseIf_eq_ok, checkLoop_eq_ok]

/-- A fault that means what its file says. -/
inductive Fault.Meant (nodes : Int) (f : Fault) : Prop
  | split (htype : f.type = "split") (ha : f.a ≠ [] ∧ NodeList nodes f.a)
    (hb : f.b ≠ [] ∧ NodeList nodes f.b) (hdisjoint : ∀ id ∈ f.a, id ∉ f.b)
  | isolate (htype : f.type = "isolate") (hnodes : f.nodes ≠ [] ∧ NodeList nodes f.nodes)
  | link (htype : f.type = "link") (hfrom : NodeList nodes [f.fromID])
    (hto : NodeList nodes [f.toID]) (hne : f.fromID ≠ f.toID)

variable {quote : String → String} {parseInt : String → Option Int}

theorem Fault.validate_eq_ok {nodes : Int} {f : Fault} {u : Unit} :
    f.validate quote nodes = .ok u ↔ (f.stop ≠ 0 → f.start < f.stop) ∧ f.Meant nodes := by
  unfold Fault.validate
  rw [bind_ok]
  simp only [refuseIf_eq_ok, exists_const]
  have hwindow : ¬ (f.stop ≠ 0 ∧ f.stop ≤ f.start) ↔ (f.stop ≠ 0 → f.start < f.stop) := by
    rw [not_and, Nat.not_le]
  rw [hwindow]
  refine and_congr_right fun _ => ?_
  by_cases hsplit : f.type = "split"
  · rw [if_pos hsplit]
    simp only [bind_ok, check_eq_ok, exists_const]
    constructor
    · rintro ⟨ha, hb, hfind⟩
      refine .split hsplit ha hb fun id hid hmem => ?_
      cases hcommon : f.a.find? (· ∈ f.b) with
      | none => exact absurd hmem (by simpa using List.find?_eq_none.mp hcommon id hid)
      | some common => rw [hcommon] at hfind; cases hfind
    · intro hmeant
      cases hmeant with
      | split _ ha hb hdisjoint =>
        have hnone : f.a.find? (· ∈ f.b) = none :=
          List.find?_eq_none.mpr fun id hid => by simpa using hdisjoint id hid
        exact ⟨ha, hb, by rw [hnone]⟩
      | isolate htype => exact absurd (hsplit.symm.trans htype) (by decide)
      | link htype => exact absurd (hsplit.symm.trans htype) (by decide)
  · rw [if_neg hsplit]
    by_cases hisolate : f.type = "isolate"
    · rw [if_pos hisolate, check_eq_ok]
      constructor
      · exact .isolate hisolate
      · intro hmeant
        cases hmeant with
        | split htype => exact absurd htype hsplit
        | isolate _ hnodes => exact hnodes
        | link htype => exact absurd (hisolate.symm.trans htype) (by decide)
    · rw [if_neg hisolate]
      by_cases hlink : f.type = "link"
      · rw [if_pos hlink]
        simp only [bind_ok, check_eq_ok, refuseIf_eq_ok, exists_const]
        constructor
        · rintro ⟨⟨_, hfrom⟩, ⟨_, hto⟩, hne⟩
          exact .link hlink hfrom hto hne
        · intro hmeant
          cases hmeant with
          | split htype => exact absurd htype hsplit
          | isolate htype => exact absurd htype hisolate
          | link _ hfrom hto hne => exact ⟨⟨nofun, hfrom⟩, ⟨nofun, hto⟩, hne⟩
      · rw [if_neg hlink]
        refine iff_of_false nofun fun hmeant => ?_
        cases hmeant with
        | split htype => exact hsplit htype
        | isolate htype => exact hisolate htype
        | link htype => exact hlink htype

/-- Whatever the file says, a fault that can be built has a name. -/
theorem Fault.build_named {f : Fault} {injector : Injector} (h : f.build quote = .ok injector) :
    injector.Named := by
  obtain ⟨hsplit, hisolate, hlink, hduring⟩ := Injector.named_of_package
  unfold Fault.build at h
  obtain ⟨inner, hinner, h⟩ := bind_ok.mp h
  cases h
  split
  · exact hduring _ _ _
  · unfold Fault.buildType at hinner
    split at hinner
    · cases hinner
      exact hsplit _ _
    · split at hinner
      · cases hinner
        exact hisolate _
      · split at hinner
        · cases hinner
          exact hlink _ _
        · cases hinner

namespace Scenario

variable {s : Scenario}

theorem parsedSeed_eq_ok : (∃ seed, s.parsedSeed parseInt quote = .ok seed) ↔
    (parseInt s.seed).isSome := by
  unfold parsedSeed
  cases parseInt s.seed with
  | none => exact iff_of_false nofun nofun
  | some seed => exact iff_of_true ⟨seed, rfl⟩ rfl

/-- What a scenario that is accepted says. -/
theorem validate_eq_ok {u : Unit} : s.validate parseInt quote = .ok u ↔
    (parseInt s.seed).isSome ∧ (1 ≤ s.nodes ∧ s.nodes ≤ maxNodes) ∧ 1 ≤ s.steps ∧
    (0 ≤ s.dropPermille ∧ s.dropPermille ≤ 1000) ∧
    ∀ f ∈ s.faults, (f.stop ≠ 0 → f.start < f.stop) ∧ f.Meant s.nodes := by
  have hfaults : (∀ f ∈ s.faults, (f.stop ≠ 0 → f.start < f.stop) ∧ f.Meant s.nodes) ↔
      ∃ xs, eachFault (Fault.validate quote s.nodes) 0 s.faults = .ok xs := by
    rw [eachFault_eq_ok]
    simp only [Fault.validate_eq_ok, exists_const]
  rw [hfaults, ← @parsedSeed_eq_ok quote parseInt s]
  simp only [validate, bind_ok, refuseIf_eq_ok, exists_const, exists_and_right, not_or, not_lt,
    UInt64.not_lt, pure, Except.pure, and_true]

/-- The faults of an accepted scenario can be built, and all of them have names. -/
theorem injectors_of_validate (h : s.validate parseInt quote = .ok ()) :
    ∃ injectors, s.injectors quote = .ok injectors ∧ ∀ injector ∈ injectors, injector.Named := by
  obtain ⟨_, _, _, _, hfaults⟩ := validate_eq_ok.mp h
  have hbuilt : ∀ f ∈ s.faults, ∃ injector, f.build quote = .ok injector := by
    intro f hf
    obtain ⟨_, hmeant⟩ := hfaults f hf
    unfold Fault.build Fault.buildType
    cases hmeant with
    | split htype => exact ⟨_, by rw [htype]; rfl⟩
    | isolate htype => exact ⟨_, by rw [htype]; rfl⟩
    | link htype => exact ⟨_, by rw [htype]; rfl⟩
  obtain ⟨injectors, hinjectors⟩ := (@eachFault_eq_ok _ _ 0 _).mpr hbuilt
  refine ⟨injectors, hinjectors, fun injector hmem => ?_⟩
  obtain ⟨f, _, hf⟩ := mem_eachFault hinjectors hmem
  exact Fault.build_named hf

end Scenario

end Accepted

/-! ## The arithmetic of a run -/

section Range

variable {γ M ρ : Type} {e e' : Engine γ M ρ} {n : Nat}

/-- At most `n` units of time have passed. -/
structure Timed (n : Nat) (e : Engine γ M ρ) : Prop where
  now : e.now ≤ n
  sent : ∀ l ∈ e.books.letters, l.sent ≤ n

theorem Timed.add {letter : Letter M} (h : Timed n e) (hnow : e'.now = e.now)
    (hletters : e'.books.letters = e.books.letters ++ [letter]) (hsent : letter.sent = e.now) :
    Timed n e' where
  now := hnow ▸ h.now
  sent l hl := by
    rw [hletters] at hl
    rcases List.mem_append.mp hl with hl | hl
    · exact h.sent l hl
    · rw [List.mem_singleton.mp hl, hsent]
      exact h.now

variable [Wire M] [Rand ρ]

theorem timed_posting (n : Nat) : Posting (Timed n : Engine γ M ρ → Prop) where
  frame hnow _ _ hletters h := ⟨hnow ▸ h.now, hletters ▸ h.sent⟩
  post h hpost := by
    cases Engine.post_eq_some.mp hpost with
    | lost | blocked | scheduled => exact h.add rfl rfl rfl

variable [Cluster γ M] {sha256 : List UInt8 → List UInt8}

def Engine.Call.isStep : Engine.Call γ → Bool
  | .step _ => true
  | _ => false

theorem Timed.exec {call : Engine.Call γ} (h : Timed n e) (hexec : e.exec sha256 call = some e') :
    Timed (n + if call.isStep then 1 else 0) e' := by
  cases call with
  | step rounds =>
    have hclock : Timed (n + 1) { e with now := e.now + 1 } :=
      ⟨Nat.succ_le_succ h.now, fun l hl => Nat.le_succ_of_le (h.sent l hl)⟩
    exact (timed_posting (n + 1)).step hclock hexec
  | collect => exact (timed_posting n).collect h hexec
  | isolate | inject | drive =>
    cases hexec
    exact ⟨h.now, h.sent⟩

theorem Timed.run {calls : List (Engine.Call γ)} (h : Timed n e)
    (hrun : e.run sha256 calls = some e') :
    Timed (n + calls.countP Engine.Call.isStep) e' := by
  induction calls generalizing e n with
  | nil =>
    cases hrun
    exact h
  | cons call calls ih =>
    obtain ⟨e₁, hexec, hrun⟩ := Option.bind_eq_some_iff.mp hrun
    have hrest := ih (h.exec hexec) hrun
    rw [List.countP_cons, Nat.add_comm (calls.countP _), ← Nat.add_assoc]
    exact hrest

omit [Wire M] [Cluster γ M] in
/-- Below the bound the draw has a positive argument, and does not panic. -/
theorem drawDelay_isSome {delay : Nat} (h : delay < 2 ^ 63 - 1) (rng : ρ) :
    0 < (BitVec.ofNat 64 (delay + 1)).toInt ∧ (drawDelay delay rng).isSome := by
  have hpos : 0 < (BitVec.ofNat 64 (delay + 1)).toInt := by
    rw [BitVec.toInt_eq_toNat_cond, BitVec.toNat_ofNat]
    split
    · omega
    · omega
  refine ⟨hpos, ?_⟩
  unfold drawDelay
  split
  · simp only [if_neg (Int.not_le.mpr hpos), Option.isSome_some]
  · rfl

/-- For a scenario that is accepted, and whose delay and steps leave room in a word: no draw of
a delay panics, and in every run of at most `steps` steps every due time is the true sum of the
time of sending and the delay, and at most the declared bound away. -/
theorem validated_run_in_range (parseInt : String → Option Int) (quote : String → String)
    (s : Scenario) (hvalid : s.validate parseInt quote = .ok ())
    (hdelay : s.maxDelay.toNat < 2 ^ 63 - 1)
    (hroom : s.steps.toNat + s.maxDelay.toNat < 2 ^ 64) :
    ∃ seed c, s.engineConfig parseInt quote = .ok (seed, c) ∧
      ∀ (sha256 : List UInt8 → List UInt8) (rng : ρ) (cluster : γ) (calls : List (Engine.Call γ))
        (e : Engine γ M ρ), calls.countP Engine.Call.isStep ≤ s.steps.toNat →
        (Engine.new c rng cluster : Engine γ M ρ).run sha256 calls = some e →
        0 < (BitVec.ofNat 64 (e.delay + 1)).toInt ∧
        (∀ rng : ρ, (drawDelay e.delay rng).isSome) ∧
        ∀ l ∈ e.books.letters, ∀ ev, l.fate = .scheduled ev →
          (BitVec.ofNat 64 l.sent + BitVec.ofNat 64 (ev.due - l.sent)).toNat = ev.due ∧
          l.sent ≤ ev.due ∧ ev.due ≤ l.sent + s.maxDelay.toNat := by
  obtain ⟨hseed, -⟩ := Scenario.validate_eq_ok.mp hvalid
  obtain ⟨seed, hseed⟩ := Scenario.parsedSeed_eq_ok.mpr hseed
  refine ⟨seed, ⟨s.dropPermille, s.maxDelay.toNat⟩, ?_, fun sha256 rng cluster calls e hsteps hrun => ?_⟩
  · unfold Scenario.engineConfig
    rw [hseed]
    rfl
  · have hsound : Sound ⟨s.dropPermille, s.maxDelay.toNat⟩ e [] := (new_sound rng cluster).run hrun
    have hstart : Timed 0 (Engine.new ⟨s.dropPermille, s.maxDelay.toNat⟩ rng cluster : Engine γ M ρ) :=
      ⟨Nat.le_refl 0, nofun⟩
    have htimed := hstart.run hrun
    have hbelow : e.delay < 2 ^ 63 - 1 := hsound.delay ▸ hdelay
    refine ⟨(drawDelay_isSome hbelow rng).1, fun rng => (drawDelay_isSome hbelow rng).2, ?_⟩
    intro l hl ev hev
    obtain ⟨_, _, hle, hge⟩ := hsound.timely l hl ev hev
    have hsent : l.sent ≤ s.steps.toNat := by
      have := htimed.sent l hl
      omega
    refine ⟨?_, hle, hge⟩
    simp only at hge
    rw [BitVec.toNat_add, BitVec.toNat_ofNat, BitVec.toNat_ofNat]
    omega

end Range

/-! ## Two scenarios -/

/-- A partition for two steps, and a link that is down all the time. -/
def stormy : Scenario where
  seed := "0x2a"
  nodes := 4
  steps := 5
  dropPermille := 300
  maxDelay := 4
  faults := [{ type := "split", a := [1, 2], b := [3, 4], start := 2, stop := 4 },
    { type := "link", fromID := 1, toID := 2 }]

/-- The stormy scenario on the ring: messages are scheduled, and their due times are true sums. -/
theorem validated_run_in_range_stormy :
    ∃ e : Engine Ring (Nat × Nat × Nat) Counter, ringEngine.run id ringScript = some e ∧
      e.books.scheduled.length = 8 ∧
      ∀ l ∈ e.books.letters, ∀ ev, l.fate = .scheduled ev →
        (BitVec.ofNat 64 l.sent + BitVec.ofNat 64 (ev.due - l.sent)).toNat = ev.due := by
  have hvalid : stormy.validate (fun _ => some 42) id = .ok () := by decide +kernel
  have hrun : (ringEngine.run id ringScript).map (·.books.scheduled.length) = some 8 := by
    decide +kernel
  obtain ⟨e, he, hlength⟩ := Option.map_eq_some_iff.mp hrun
  obtain ⟨seed, c, hconfig, hrange⟩ := @validated_run_in_range Ring (Nat × Nat × Nat) Counter _ _ _
    (fun _ => some 42) id stormy hvalid (by decide) (by decide)
  have hc : c = ⟨300, 4⟩ := (congrArg Prod.snd (Except.ok.inj hconfig)).symm
  rw [hc] at hrange
  obtain ⟨_, _, hsums⟩ := hrange id _ _ ringScript e (by decide) he
  exact ⟨e, he, hlength, fun l hl ev hev => (hsums l hl ev hev).1⟩

/-- A delay that is accepted. -/
def farAhead : Scenario where
  seed := "1"
  nodes := 2
  steps := 1
  maxDelay := 9223372036854775807

/-- The draw for the first message has a negative argument, and panics. -/
theorem validated_delay_panics :
    farAhead.validate (fun _ => some 1) id = .ok () ∧
    ∃ c, farAhead.engineConfig (fun _ => some 1) id = .ok (1, c) ∧
      (BitVec.ofNat 64 (c.maxDelay + 1)).toInt = -9223372036854775808 ∧
      (Engine.new c ⟨1⟩ { count := 2, period := 1, outbound := fun _ => [(1, 2, 1)] } :
        Engine Ring (Nat × Nat × Nat) Counter).collect.isNone = true := by
  refine ⟨by decide +kernel, ⟨0, 9223372036854775807⟩, rfl, by decide, by decide +kernel⟩

end Promtact.Dst
