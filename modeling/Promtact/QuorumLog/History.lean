import Mathlib

/-!
# A replicated log with changing quorums: the history

The library speaks about nodes `N` that keep a log of entries `E`, vote in
numbered terms and follow at most one leader per term. It knows nothing about
messages, timers, masks or disks. What it keeps is a *history*: the durable part
of every node, and for each term what the nodes promised in it.

* Logs are whole logs: index `i` (counted from one) is the entry `x[i - 1]`, and
  nothing is ever compacted away here.
* A quorum depends on the log it is taken for. `Protocol.Quorum g S` reads "`S`
  is a quorum of the voters that the prefix `g` establishes". Two quorums of the
  same prefix meet; nothing is assumed for quorums of different prefixes.
* `Protocol.Effective x k S` is the guard of elections and commits: a holder of
  the log `x` that knows `x.take k` to be committed may act on the set `S`.

`History.Valid` lists what every step keeps. The consequences are in
`QuorumLog.Completeness`, the steps in `QuorumLog.Steps`.
-/

namespace QuorumLog

/-- What the library needs to know about entries and quorums. -/
structure Protocol (N E : Type) where
  /-- The term an entry was created in. -/
  term : E → Nat
  /-- The entry changes the voters. -/
  conf : E → Prop
  /-- `S` is a quorum of the voters established by the prefix. -/
  Quorum : List E → Set N → Prop
  quorum_mono : ∀ {g : List E} {S T : Set N}, S ⊆ T → Quorum g S → Quorum g T
  quorum_inter : ∀ {g : List E} {S T : Set N}, Quorum g S → Quorum g T → ∃ n, n ∈ S ∧ n ∈ T

variable {N E : Type}

/-! ## Prefixes -/

theorem take_prefix_of_le {x : List E} {i j : Nat} (h : i ≤ j) : x.take i <+: x.take j :=
  List.take_prefix_take_left h

theorem take_eq_of_pre {x y : List E} {i : Nat} (h : x <+: y) (hi : i ≤ x.length) :
    y.take i = x.take i := by
  obtain ⟨z, rfl⟩ := h
  rw [List.take_append_of_le_length hi]

theorem getElem?_of_pre {x y : List E} {i : Nat} {e : E} (h : x <+: y) (he : x[i]? = some e) :
    y[i]? = some e := by
  obtain ⟨z, rfl⟩ := h
  rw [List.getElem?_append_left (List.getElem?_eq_some_iff.mp he).1]
  exact he

/-- A prefix of known length is a `take` of the longer list. -/
theorem take_eq_of_takes {x y : List E} {i : Nat} (h : x.take i <+: y)
    (hi : i ≤ x.length) : y.take i = x.take i := by
  have hlen : (x.take i).length = i := by simp [hi]
  have := take_eq_of_pre (i := i) h (by omega)
  rwa [List.take_take, Nat.min_self] at this

theorem le_length_of_takes {x y : List E} {i : Nat} (h : x.take i <+: y)
    (hi : i ≤ x.length) : i ≤ y.length := by
  have := h.length_le
  simp only [List.length_take] at this
  omega

theorem take_prefix_of_take_eq {x y : List E} {i : Nat} (h : x.take i = y.take i) :
    x.take i <+: y := by
  rw [h]
  exact List.take_prefix _ _

theorem take_take_of_le {x : List E} {i j : Nat} (h : i ≤ j) : (x.take j).take i = x.take i := by
  rw [List.take_take, Nat.min_eq_left h]

theorem take_eq_mono {x y : List E} {i j : Nat} (h : i ≤ j) (e : x.take j = y.take j) :
    x.take i = y.take i := by
  rw [← take_take_of_le h, e, take_take_of_le h]

theorem take_prefix_mono {x y : List E} {i j : Nat} (h : i ≤ j) (e : x.take j <+: y) :
    x.take i <+: y :=
  (take_prefix_of_le h).trans e

/-- Two prefixes of one list are comparable; the shorter one comes first. -/
theorem prefix_of_le {x y z : List E} (hx : x <+: z) (hy : y <+: z)
    (h : x.length ≤ y.length) : x <+: y :=
  List.prefix_of_prefix_length_le hx hy h

/-- Two lists have a longest common prefix. -/
theorem exists_common (x y : List E) : ∃ d, d ≤ x.length ∧ d ≤ y.length ∧
    x.take d = y.take d ∧
    ∀ a, a ≤ x.length → a ≤ y.length → x.take a = y.take a → a ≤ d := by
  classical
  induction x generalizing y with
  | nil => exact ⟨0, by simp, by simp, by simp, fun a ha _ _ => by simpa using ha⟩
  | cons e x ih =>
    cases y with
    | nil => exact ⟨0, by simp, by simp, by simp, fun a _ ha _ => by simpa using ha⟩
    | cons f y =>
      by_cases hef : e = f
      · subst hef
        obtain ⟨d, hx, hy, he, hmax⟩ := ih y
        refine ⟨d + 1, by simpa using hx, by simpa using hy, by simp [he], ?_⟩
        intro a hax hay hae
        cases a with
        | zero => omega
        | succ a =>
          have := hmax a (by simpa using hax) (by simpa using hay) (by simpa using hae)
          omega
      · refine ⟨0, by simp, by simp, by simp, ?_⟩
        intro a _ _ hae
        cases a with
        | zero => omega
        | succ a => exact absurd (by simpa using hae : e = f ∧ _).1 hef

namespace Protocol

variable (P : Protocol N E)

/-- The term of the entry at index `i`; zero at the empty prefix and past the end. -/
def termAt (x : List E) : Nat → Nat
  | 0 => 0
  | i + 1 => (x[i]?).elim 0 P.term

/-- The term of the last entry. -/
def lastTerm (x : List E) : Nat := P.termAt x x.length

/-- The entry at index `i` changes the voters. -/
def ConfAt (x : List E) : Nat → Prop
  | 0 => False
  | i + 1 => ∃ e, x[i]? = some e ∧ P.conf e

/-- Past index `q` there is at most one entry that changes the voters, and it is
not among the first `k`. -/
def OneTail (x : List E) (q k : Nat) : Prop :=
  ∀ a, q < a → P.ConfAt x a → k < a ∧ ∀ b, q < b → P.ConfAt x b → b = a

/-- The set `S` suffices for a holder of `x` that knows `x.take k` to be
committed: it is a quorum of every prefix after which at most one change of
voters follows, and that one is not known to be committed. -/
def Effective (x : List E) (k : Nat) (S : Set N) : Prop :=
  ∀ q, q ≤ x.length → P.OneTail x q k → P.Quorum (x.take q) S

/-- The log `x` is at least as up to date as `y`. -/
def UpToDate (x y : List E) : Prop :=
  P.lastTerm y < P.lastTerm x ∨ P.lastTerm y = P.lastTerm x ∧ y.length ≤ x.length

variable {P}

@[simp] theorem termAt_zero (x : List E) : P.termAt x 0 = 0 := rfl

theorem termAt_succ (x : List E) (i : Nat) : P.termAt x (i + 1) = (x[i]?).elim 0 P.term := rfl

theorem confAt_succ (x : List E) (i : Nat) :
    P.ConfAt x (i + 1) ↔ ∃ e, x[i]? = some e ∧ P.conf e := Iff.rfl

theorem termAt_eq_of_take {x y : List E} {i j : Nat} (h : x.take j = y.take j) (hi : i ≤ j) :
    P.termAt x i = P.termAt y i := by
  cases i with
  | zero => rfl
  | succ i =>
    have hx : (x.take j)[i]? = x[i]? := by rw [List.getElem?_take_of_lt (by omega)]
    have hy : (y.take j)[i]? = y[i]? := by rw [List.getElem?_take_of_lt (by omega)]
    rw [termAt_succ, termAt_succ, ← hx, ← hy, h]

theorem termAt_take {x : List E} {i j : Nat} (hi : i ≤ j) :
    P.termAt (x.take j) i = P.termAt x i :=
  termAt_eq_of_take (j := j) (by rw [take_take_of_le (Nat.le_refl j)]) hi

theorem termAt_of_pre {x y : List E} {i : Nat} (h : x <+: y) (hi : i ≤ x.length) :
    P.termAt y i = P.termAt x i :=
  termAt_eq_of_take (take_eq_of_pre h hi) (Nat.le_refl i)

theorem termAt_append_length (x : List E) (e : E) :
    P.termAt (x ++ [e]) (x.length + 1) = P.term e := by
  simp [termAt]

/-- Inside the log the term at an index is the term of an entry. -/
theorem termAt_mem {x : List E} {i : Nat} (h0 : 0 < i) (hi : i ≤ x.length) :
    ∃ e, e ∈ x ∧ x[i - 1]? = some e ∧ P.termAt x i = P.term e := by
  cases i with
  | zero => omega
  | succ i =>
    have hlt : i < x.length := by omega
    refine ⟨x[i], List.getElem_mem hlt, by simp [hlt], ?_⟩
    simp [termAt, hlt]

theorem confAt_eq_of_take {x y : List E} {i j : Nat} (h : x.take j = y.take j) (hi : i ≤ j) :
    P.ConfAt x i ↔ P.ConfAt y i := by
  cases i with
  | zero => exact Iff.rfl
  | succ i =>
    have hx : (x.take j)[i]? = x[i]? := by rw [List.getElem?_take_of_lt (by omega)]
    have hy : (y.take j)[i]? = y[i]? := by rw [List.getElem?_take_of_lt (by omega)]
    rw [confAt_succ, confAt_succ, ← hx, ← hy, h]

theorem confAt_take {x : List E} {i j : Nat} (hi : i ≤ j) :
    P.ConfAt (x.take j) i ↔ P.ConfAt x i :=
  confAt_eq_of_take (j := j) (by rw [take_take_of_le (Nat.le_refl j)]) hi

theorem ConfAt.pos {x : List E} {i : Nat} (h : P.ConfAt x i) : 0 < i := by
  cases i with
  | zero => exact h.elim
  | succ i => omega

theorem ConfAt.le_length {x : List E} {i : Nat} (h : P.ConfAt x i) : i ≤ x.length := by
  cases i with
  | zero => omega
  | succ i =>
    obtain ⟨e, he, _⟩ := h
    have := (List.getElem?_eq_some_iff.mp he).1
    omega

/-- How `OneTail` is shown: what is known lies in front of `q`, and so does the
first of any two changes of voters. -/
theorem oneTail_intro {x : List E} {q k : Nat} (hknown : ∀ a, P.ConfAt x a → a ≤ k → a ≤ q)
    (hpair : ∀ a b, a < b → P.ConfAt x a → P.ConfAt x b → a ≤ q) : P.OneTail x q k := by
  intro a hqa hca
  refine ⟨?_, ?_⟩
  · by_contra hle
    have := hknown a hca (by omega)
    omega
  · intro b hqb hcb
    rcases Nat.lt_trichotomy a b with hab | hab | hab
    · have := hpair a b hab hca hcb
      omega
    · exact hab.symm
    · have := hpair b a hab hcb hca
      omega

theorem Effective.mono {x : List E} {k : Nat} {S T : Set N} (h : P.Effective x k S)
    (hST : S ⊆ T) : P.Effective x k T :=
  fun q hq ht => P.quorum_mono hST (h q hq ht)

theorem UpToDate.refl (x : List E) : P.UpToDate x x := Or.inr ⟨rfl, Nat.le_refl _⟩

end Protocol

/-! ## The history -/

/-- What is remembered of a term that has a leader. `start` is the log the leader
was elected with, `known` how much of it the leader then knew to be committed,
`electors` the nodes whose votes elected it, and `log` everything it has
appended so far. -/
structure Reign (N E : Type) where
  who : N
  start : List E
  known : Nat
  electors : Set N
  log : List E

/-- The durable part of every node, and the promises made in each term. -/
structure History (N E : Type) where
  term : N → Nat
  log : N → List E
  commit : N → Nat
  /-- The candidate a node voted for in a term. -/
  vote : N → Nat → Option N
  /-- The log a node had when it voted in a term. -/
  voteLog : N → Nat → List E
  /-- The log and the commit index a node stood for election with. -/
  cand : N → Nat → Option (List E × Nat)
  lead : Nat → Option (Reign N E)
  /-- The length of the leader's log a node has acknowledged in a term. -/
  ack : N → Nat → Nat
  /-- The leader of a term found an index committed. -/
  chosen : Nat → Nat → Prop

namespace History

variable (P : Protocol N E) (h : History N E)

/-- Every prefix of `x` is a prefix of the log of the leader that created its
last entry. -/
def Sound (x : List E) : Prop :=
  ∀ i, 0 < i → i ≤ x.length → ∃ r, h.lead (P.termAt x i) = some r ∧ x.take i <+: r.log

/-- `x.take k` is committed by an event that comes before `(t, i)`. -/
def Known (t i : Nat) (x : List E) (k : Nat) : Prop :=
  k = 0 ∨ ∃ t₀ i₀ r₀, h.chosen t₀ i₀ ∧ h.lead t₀ = some r₀ ∧ k ≤ i₀ ∧
    x.take k <+: r₀.log ∧ (t₀ < t ∨ t₀ = t ∧ i₀ < i)

/-- The log `y` was found committed in term `t` or before. -/
def Committed (t : Nat) (y : List E) : Prop :=
  y = [] ∨ ∃ t₀ i r, h.chosen t₀ i ∧ h.lead t₀ = some r ∧ t₀ ≤ t ∧ y.length ≤ i ∧ y <+: r.log

/-- A leader of a term strictly between `t` and `u` started without `x`. -/
def Displaced (t u : Nat) (x : List E) : Prop :=
  ∃ s r, t < s ∧ s < u ∧ h.lead s = some r ∧ ¬ x <+: r.start

/-- The log `x` holds everything chosen in terms before `t`. -/
def Complete (t : Nat) (x : List E) : Prop :=
  ∀ s i r, h.chosen s i → h.lead s = some r → s < t → r.log.take i <+: x

/-- The invariant of the library. -/
structure Valid : Prop where
  log_sound : ∀ n, h.Sound P (h.log n)
  log_term : ∀ n, ∀ e ∈ h.log n, P.term e ≤ h.term n
  commit_le : ∀ n, h.commit n ≤ (h.log n).length
  commit_known : ∀ n, h.Known (h.term n + 1) 0 (h.log n) (h.commit n)
  vote_term : ∀ {n t c}, h.vote n t = some c → t ≤ h.term n
  vote_cand : ∀ {n t c}, h.vote n t = some c →
    ∃ x k, h.cand c t = some (x, k) ∧ P.UpToDate x (h.voteLog n t)
  vote_sound : ∀ {n t c}, h.vote n t = some c → h.Sound P (h.voteLog n t)
  cand_pos : ∀ {c t x k}, h.cand c t = some (x, k) → 0 < t
  cand_term : ∀ {c t x k}, h.cand c t = some (x, k) → t ≤ h.term c
  cand_sound : ∀ {c t x k}, h.cand c t = some (x, k) → h.Sound P x
  cand_older : ∀ {c t x k}, h.cand c t = some (x, k) → ∀ e ∈ x, P.term e < t
  cand_known : ∀ {c t x k}, h.cand c t = some (x, k) → k ≤ x.length ∧ h.Known t 0 x k
  lead_cand : ∀ {t r}, h.lead t = some r → h.cand r.who t = some (r.start, r.known)
  lead_quorum : ∀ {t r}, h.lead t = some r → P.Effective r.start r.known r.electors
  lead_votes : ∀ {t r}, h.lead t = some r → ∀ n ∈ r.electors, h.vote n t = some r.who
  lead_start : ∀ {t r}, h.lead t = some r → r.start <+: r.log
  lead_own : ∀ {t r}, h.lead t = some r → ∀ e ∈ r.log.drop r.start.length, P.term e = t
  lead_log : ∀ {t r}, h.lead t = some r → h.term r.who = t → h.log r.who = r.log
  lead_commit : ∀ {t r i}, h.lead t = some r → h.chosen t i → i ≤ h.commit r.who
  lead_conf : ∀ {t r a b}, h.lead t = some r → a < b → r.start.length < b →
    P.ConfAt r.log a → P.ConfAt r.log b → h.Known t b r.log a
  chosen_spec : ∀ {t i}, h.chosen t i → ∃ r, h.lead t = some r ∧ 0 < i ∧ i ≤ r.log.length ∧
    P.termAt r.log i = t ∧
    ∃ k, h.Known t i r.log k ∧ k ≤ i ∧ P.Effective (r.log.take i) k {n | i ≤ h.ack n t}
  ack_term : ∀ {n t}, 0 < h.ack n t → t ≤ h.term n
  ack_lead : ∀ {n t}, 0 < h.ack n t → ∃ r, h.lead t = some r ∧ h.ack n t ≤ r.log.length
  ack_log : ∀ {n t r i}, h.lead t = some r → i ≤ h.ack n t →
    r.log.take i <+: h.log n ∨ h.Displaced t (h.term n + 1) (r.log.take i)
  ack_vote : ∀ {n t u c r i}, h.vote n u = some c → h.lead t = some r → t < u →
    i ≤ h.ack n t → r.log.take i <+: h.voteLog n u ∨ h.Displaced t (u + 1) (r.log.take i)
  ack_elector : ∀ {n t u q r i}, h.lead u = some q → n ∈ q.electors → h.lead t = some r →
    t < u → i ≤ h.ack n t →
    r.log.take i <+: h.voteLog n u ∨ h.Displaced t u (r.log.take i)

/-- The history before anything happened. -/
def empty : History N E where
  term _ := 0
  log _ := []
  commit _ := 0
  vote _ _ := none
  voteLog _ _ := []
  cand _ _ := none
  lead _ := none
  ack _ _ := 0
  chosen _ _ := False

end History

end QuorumLog
