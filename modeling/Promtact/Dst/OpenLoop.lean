import Promtact.Dst.Conservation

/-!
# Open loops

A protocol is an open loop when a delivery changes nothing that a tick or a drain looks at.
Then what the nodes send does not depend on what they receive, and a collection right after a
delivery finds nothing (`collect_of_quiet`). The ring is one.
-/

namespace Promtact.Dst

open Function (update)

variable {γ M ρ κ : Type}

/-! ## Open loops -/

/-- Draining the node gives nothing, and changes nothing in the core. -/
def Drained [Cluster γ M] (core : γ → κ) (id : Nat) (cluster : γ) : Prop :=
  ∃ cluster', Cluster.drain id cluster = some ([], cluster') ∧ core cluster' = core cluster

/-- A protocol with a core that deliveries do not touch and that decides what ticks and
drains do. The last three fields are the contract of `drain`: it empties the buffer of the
node, and fills no other. -/
structure OpenLoop (γ M κ : Type) [Cluster γ M] where
  core : γ → κ
  nodes_core : ∀ {a b : γ}, core a = core b → Cluster.nodes a = Cluster.nodes b
  tick_core : ∀ {id : Nat} {a b a' : γ}, core a = core b → Cluster.tick id a = some a' →
    ∃ b', Cluster.tick id b = some b' ∧ core a' = core b'
  drain_core : ∀ {id : Nat} {a b a' : γ} {messages : List M}, core a = core b →
    Cluster.drain id a = some (messages, a') →
    ∃ b', Cluster.drain id b = some (messages, b') ∧ core a' = core b'
  deliver_core : ∀ {id : Nat} {m : M} {a a' : γ}, Cluster.deliver id m a = some a' →
    core a' = core a
  drain_nodes : ∀ {id : Nat} {a a' : γ} {messages : List M},
    Cluster.drain id a = some (messages, a') → Cluster.nodes a' = Cluster.nodes a
  drain_empties : ∀ {id : Nat} {a a' : γ} {messages : List M},
    Cluster.drain id a = some (messages, a') → Drained core id a'
  drain_fills : ∀ {id other : Nat} {a a' : γ} {messages : List M},
    Cluster.drain id a = some (messages, a') → Drained core other a → Drained core other a'

namespace OpenLoop

variable [Cluster γ M] (loop : OpenLoop γ M κ)

/-- A call that does the same to clusters with the same core. Injectors are not registered
on the way. -/
def Respects : Engine.Call γ → Prop
  | .inject _ => False
  | .drive action => ∀ a b, loop.core a = loop.core b → loop.core (action a) = loop.core (action b)
  | _ => True

/-- No node has anything to send. -/
def Quiet (cluster : γ) : Prop := ∀ id ∈ Cluster.nodes cluster, Drained loop.core id cluster

variable {loop}

theorem drained_core {id : Nat} {a b : γ} (hcore : loop.core a = loop.core b)
    (h : Drained loop.core id a) : Drained loop.core id b := by
  obtain ⟨a', hdrain, ha'⟩ := h
  obtain ⟨b', hdrain', hb'⟩ := loop.drain_core hcore hdrain
  exact ⟨b', hdrain', hb'.symm.trans (ha'.trans hcore)⟩

theorem quiet_core {a b : γ} (hcore : loop.core a = loop.core b) (h : loop.Quiet a) :
    loop.Quiet b := by
  intro id hid
  rw [← loop.nodes_core hcore] at hid
  exact drained_core hcore (h id hid)

variable [Wire M] [Rand ρ] {e e' : Engine γ M ρ}

omit [Cluster γ M] in
theorem post_cluster {m : M} (h : e.post m = some e') : e'.cluster = e.cluster := by
  cases Engine.post_eq_some.mp h with
  | lost | blocked | scheduled => rfl

theorem collectNode_drain {id : Nat} (h : e.collectNode id = some e') :
    ∃ messages, Cluster.drain id e.cluster = some (messages, e'.cluster) := by
  unfold Engine.collectNode at h
  obtain ⟨⟨messages, cluster⟩, hdrain, hfold⟩ := Option.bind_eq_some_iff.mp h
  refine ⟨messages, hdrain.trans ?_⟩
  have hcluster : e'.cluster = cluster :=
    foldlM_induction (P := fun e => e.cluster = cluster)
      (fun s m s' hs hpost => (post_cluster hpost).trans hs) rfl hfold
  rw [hcluster]

/-- After a collection no node has anything to send. -/
theorem collect_quiet (h : e.collect = some e') : loop.Quiet e'.cluster := by
  have hloop : ∀ (l done : List Nat) (e : Engine γ M ρ), l.foldlM Engine.collectNode e = some e' →
      (∀ id ∈ done, Drained loop.core id e.cluster) →
      Cluster.nodes e'.cluster = Cluster.nodes e.cluster ∧
        ∀ id ∈ done ++ l, Drained loop.core id e'.cluster := by
    intro l
    induction l with
    | nil =>
      intro done e hfold hdone
      cases hfold
      exact ⟨rfl, by simpa using hdone⟩
    | cons id l ih =>
      intro done e hfold hdone
      rw [List.foldlM_cons] at hfold
      obtain ⟨e₁, hnode, hfold⟩ := Option.bind_eq_some_iff.mp hfold
      obtain ⟨messages, hdrain⟩ := collectNode_drain hnode
      have hdone₁ : ∀ other ∈ done ++ [id], Drained loop.core other e₁.cluster := by
        intro other hmem
        rcases List.mem_append.mp hmem with hmem | hmem
        · exact loop.drain_fills hdrain (hdone other hmem)
        · rw [List.mem_singleton.mp hmem]
          exact loop.drain_empties hdrain
      obtain ⟨hnodes, hall⟩ := ih (done ++ [id]) e₁ hfold hdone₁
      exact ⟨hnodes.trans (loop.drain_nodes hdrain), by simpa using hall⟩
  obtain ⟨hnodes, hall⟩ := hloop _ [] e h nofun
  intro id hid
  rw [hnodes] at hid
  exact hall id hid

/-- Where no node has anything to send, a collection changes the cluster at most, and not
its core. -/
theorem collect_of_quiet (hquiet : loop.Quiet e.cluster) :
    ∃ cluster, e.collect = some { e with cluster := cluster } ∧
      loop.core cluster = loop.core e.cluster := by
  have hloop : ∀ (l : List Nat) (cluster : γ), loop.core cluster = loop.core e.cluster →
      (∀ id ∈ l, Drained loop.core id e.cluster) →
      ∃ cluster', l.foldlM Engine.collectNode { e with cluster := cluster } =
          some { e with cluster := cluster' } ∧ loop.core cluster' = loop.core e.cluster := by
    intro l
    induction l with
    | nil => exact fun cluster hcore _ => ⟨cluster, rfl, hcore⟩
    | cons id l ih =>
      intro cluster hcore hl
      obtain ⟨cluster₁, hdrain, hcore₁⟩ := drained_core hcore.symm (hl id List.mem_cons_self)
      obtain ⟨cluster', hfold, hcore'⟩ := ih cluster₁ (hcore₁.trans hcore)
        fun other hmem => hl other (List.mem_cons_of_mem id hmem)
      refine ⟨cluster', ?_, hcore'⟩
      rw [List.foldlM_cons]
      have hnode : ({ e with cluster := cluster } : Engine γ M ρ).collectNode id =
          some { e with cluster := cluster₁ } := by
        unfold Engine.collectNode
        rw [hdrain]
        simp
      rw [hnode]
      exact hfold
  exact hloop _ e.cluster rfl hquiet

end OpenLoop

/-! ## The ring -/

namespace Ring

/-- All but what the nodes received. -/
def core (r : Ring) : Ring := { r with received := fun _ => 0 }

theorem core_eq {a b : Ring} : a.core = b.core ↔ ∃ received, b = { a with received := received } := by
  constructor
  · intro h
    refine ⟨b.received, ?_⟩
    cases a
    cases b
    simpa [core, eq_comm] using h
  · rintro ⟨received, rfl⟩
    rfl

theorem drained_iff {id : Nat} {r : Ring} : Drained core id r ↔ r.outbound id = [] := by
  constructor
  · rintro ⟨r', hdrain, _⟩
    exact congrArg Prod.fst (Option.some.inj hdrain)
  · intro hempty
    refine ⟨{ r with outbound := update r.outbound id [] }, ?_, ?_⟩
    · show some (r.outbound id, _) = _
      rw [hempty]
    · rw [← hempty, Function.update_eq_self]

/-- The ring is an open loop: a node counts what it receives and does nothing with it. -/
def openLoop : OpenLoop Ring (Nat × Nat × Nat) Ring where
  core := core
  nodes_core hcore := by
    obtain ⟨received, rfl⟩ := core_eq.mp hcore
    rfl
  tick_core {id a b a'} hcore htick := by
    obtain ⟨received, rfl⟩ := core_eq.mp hcore
    simp only [Cluster.tick] at htick ⊢
    split at htick
    · rename_i hperiod
      cases htick
      exact ⟨_, if_pos hperiod, rfl⟩
    · rename_i hperiod
      cases htick
      exact ⟨_, if_neg hperiod, rfl⟩
  drain_core hcore hdrain := by
    obtain ⟨received, rfl⟩ := core_eq.mp hcore
    cases hdrain
    exact ⟨_, rfl, rfl⟩
  deliver_core hdeliver := by
    cases hdeliver
    rfl
  drain_nodes hdrain := by
    cases hdrain
    rfl
  drain_empties {id a a' messages} hdrain := by
    cases hdrain
    exact drained_iff.mpr (Function.update_self ..)
  drain_fills {id other a a' messages} hdrain hother := by
    cases hdrain
    rw [drained_iff] at hother ⊢
    show update a.outbound id [] other = []
    by_cases heq : other = id
    · rw [heq, Function.update_self]
    · rw [Function.update_of_ne heq, hother]

end Ring

end Promtact.Dst
