import Promtact.QuorumLog.Completeness

/-!
# A replicated log with changing quorums: the steps

Each step changes what one node has made durable, or what is remembered of a
term. For every step there is a lemma that it keeps `History.Valid` under its
guard, and a lemma that the history only grows (`History.Grows`): what other
nodes hold is untouched, and promises, leaders and choices are never taken back.

The steps are `bump`, `stand`, `castVote`, `elect`, `extend`, `relog`, `raise`,
`choose` and `learn`. Accepting entries from a leader and installing a committed
prefix are `relog` at `adopt`.
-/

namespace QuorumLog

open Protocol Function

variable {N E : Type}

/-! ## Tables -/

section Update

variable {ι κ β : Type} [DecidableEq ι] [DecidableEq κ]

/-- An entry of a table that was changed at one place. -/
theorem update_cases (f : ι → β) (a : ι) (b : β) (x : ι) :
    (x = a ∧ update f a b x = b) ∨ (x ≠ a ∧ update f a b x = f x) := by
  by_cases hx : x = a
  · exact Or.inl ⟨hx, by simp [hx]⟩
  · exact Or.inr ⟨hx, by simp [hx]⟩

/-- What is found in a table after something was put in one place. -/
theorem update_some {f : ι → Option β} {a x : ι} {b c : β} (hc : update f a (some b) x = some c) :
    (x = a ∧ c = b) ∨ (x ≠ a ∧ f x = some c) := by
  rcases update_cases f a (some b) x with ⟨hx, he⟩ | ⟨hx, he⟩ <;> rw [he] at hc
  · exact Or.inl ⟨hx, (Option.some.inj hc).symm⟩
  · exact Or.inr ⟨hx, hc⟩

/-- An entry of a table of tables that was changed at one place. -/
theorem update_update_cases (f : ι → κ → β) (a : ι) (k : κ) (b : β) (x : ι) (y : κ) :
    (x = a ∧ y = k ∧ update f a (update (f a) k b) x y = b) ∨
      ((x ≠ a ∨ y ≠ k) ∧ update f a (update (f a) k b) x y = f x y) := by
  rcases update_cases f a (update (f a) k b) x with ⟨rfl, hx⟩ | ⟨hne, hx⟩ <;> rw [hx]
  · rcases update_cases (f x) k b y with ⟨hy, he⟩ | ⟨hy, he⟩
    · exact Or.inl ⟨rfl, hy, he⟩
    · exact Or.inr ⟨Or.inr hy, he⟩
  · exact Or.inr ⟨Or.inl hne, rfl⟩

/-- What is found in a table of tables after something was put in one place. -/
theorem update_update_some {f : ι → κ → Option β} {a x : ι} {k y : κ} {b c : β}
    (hc : update f a (update (f a) k (some b)) x y = some c) :
    (x = a ∧ y = k ∧ c = b) ∨ ((x ≠ a ∨ y ≠ k) ∧ f x y = some c) := by
  rcases update_update_cases f a k (some b) x y with ⟨hx, hy, he⟩ | ⟨hne, he⟩ <;> rw [he] at hc
  · exact Or.inl ⟨hx, hy, (Option.some.inj hc).symm⟩
  · exact Or.inr ⟨hne, hc⟩

end Update

namespace History

/-! ## Growth -/

/-- `h'` comes after `h`, and node `n` made all the steps in between. -/
structure Grows (n : N) (h h' : History N E) : Prop where
  term_ne : ∀ m, m ≠ n → h'.term m = h.term m
  log_ne : ∀ m, m ≠ n → h'.log m = h.log m
  commit_ne : ∀ m, m ≠ n → h'.commit m = h.commit m
  vote_ne : ∀ m, m ≠ n → h'.vote m = h.vote m
  cand_ne : ∀ m, m ≠ n → h'.cand m = h.cand m
  ack_ne : ∀ m, m ≠ n → h'.ack m = h.ack m
  term_le : h.term n ≤ h'.term n
  commit_le : h.commit n ≤ h'.commit n
  vote_le : ∀ t c, h.vote n t = some c → h'.vote n t = some c
  cand_le : ∀ t p, h.cand n t = some p → h'.cand n t = some p
  ack_le : ∀ t, h.ack n t ≤ h'.ack n t
  lead_other : ∀ t r, h.lead t = some r → r.who ≠ n → h'.lead t = some r
  lead_own : ∀ t r, h.lead t = some r → r.who = n → ∃ r', h'.lead t = some r' ∧
    r'.who = n ∧ r'.start = r.start ∧ r'.electors = r.electors ∧ r.log <+: r'.log
  lead_new : ∀ t r, h.lead t = none → h'.lead t = some r → r.who = n
  chosen_le : ∀ t i, h.chosen t i → h'.chosen t i

namespace Grows

variable {n : N} {h h' h'' : History N E} {P : Protocol N E}

theorem refl (n : N) (h : History N E) : Grows n h h where
  term_ne _ _ := rfl
  log_ne _ _ := rfl
  commit_ne _ _ := rfl
  vote_ne _ _ := rfl
  cand_ne _ _ := rfl
  ack_ne _ _ := rfl
  term_le := Nat.le_refl _
  commit_le := Nat.le_refl _
  vote_le _ _ hc := hc
  cand_le _ _ hc := hc
  ack_le _ := Nat.le_refl _
  lead_other _ _ hr _ := hr
  lead_own _ r hr hw := ⟨r, hr, hw, rfl, rfl, List.prefix_refl _⟩
  lead_new _ _ hn hr := by rw [hn] at hr; cases hr
  chosen_le _ _ hc := hc

theorem trans (g : Grows n h h') (g' : Grows n h' h'') : Grows n h h'' where
  term_ne m hm := (g'.term_ne m hm).trans (g.term_ne m hm)
  log_ne m hm := (g'.log_ne m hm).trans (g.log_ne m hm)
  commit_ne m hm := (g'.commit_ne m hm).trans (g.commit_ne m hm)
  vote_ne m hm := (g'.vote_ne m hm).trans (g.vote_ne m hm)
  cand_ne m hm := (g'.cand_ne m hm).trans (g.cand_ne m hm)
  ack_ne m hm := (g'.ack_ne m hm).trans (g.ack_ne m hm)
  term_le := Nat.le_trans g.term_le g'.term_le
  commit_le := Nat.le_trans g.commit_le g'.commit_le
  vote_le t c hc := g'.vote_le t c (g.vote_le t c hc)
  cand_le t p hc := g'.cand_le t p (g.cand_le t p hc)
  ack_le t := Nat.le_trans (g.ack_le t) (g'.ack_le t)
  lead_other t r hr hw := g'.lead_other t r (g.lead_other t r hr hw) hw
  lead_own t r hr hw := by
    obtain ⟨r', hr', hw', hs', he', hp'⟩ := g.lead_own t r hr hw
    obtain ⟨r'', hr'', hw'', hs'', he'', hp''⟩ := g'.lead_own t r' hr' hw'
    exact ⟨r'', hr'', hw'', hs''.trans hs', he''.trans he', hp'.trans hp''⟩
  lead_new t r hn hr := by
    cases hl : h'.lead t with
    | none => exact g'.lead_new t r hl hr
    | some r' =>
      obtain ⟨r'', hr'', hw'', _⟩ := g'.lead_own t r' hl (g.lead_new t r' hn hl)
      rw [hr''] at hr
      cases hr
      exact hw''
  chosen_le t i hc := g'.chosen_le t i (g.chosen_le t i hc)

/-- A leader stays, and its log only grows. -/
theorem lead (g : Grows n h h') {t : Nat} {r : Reign N E} (hr : h.lead t = some r) :
    ∃ r', h'.lead t = some r' ∧ r'.who = r.who ∧ r'.start = r.start ∧
      r'.electors = r.electors ∧ r.log <+: r'.log := by
  by_cases hw : r.who = n
  · obtain ⟨r', hr', hw', rest⟩ := g.lead_own t r hr hw
    exact ⟨r', hr', hw'.trans hw.symm, rest⟩
  · exact ⟨r, g.lead_other t r hr hw, rfl, rfl, rfl, List.prefix_refl _⟩

/-- The log of another node's leadership does not move. -/
theorem lead_of_ne (g : Grows n h h') {t : Nat} {r : Reign N E} (hr : h'.lead t = some r)
    (hw : r.who ≠ n) : h.lead t = some r := by
  cases hl : h.lead t with
  | none => exact absurd (g.lead_new t r hl hr) hw
  | some q =>
    by_cases hq : q.who = n
    · obtain ⟨q', hq', hw', _⟩ := g.lead_own t q hl hq
      rw [hr] at hq'
      cases hq'
      exact absurd hw' hw
    · rw [← hr, g.lead_other t q hl hq]

theorem term_le' (g : Grows n h h') (m : N) : h.term m ≤ h'.term m := by
  by_cases hm : m = n
  · rw [hm]; exact g.term_le
  · rw [g.term_ne m hm]

theorem commit_le' (g : Grows n h h') (m : N) : h.commit m ≤ h'.commit m := by
  by_cases hm : m = n
  · rw [hm]; exact g.commit_le
  · rw [g.commit_ne m hm]

theorem ack_le' (g : Grows n h h') (m : N) (t : Nat) : h.ack m t ≤ h'.ack m t := by
  by_cases hm : m = n
  · rw [hm]; exact g.ack_le t
  · rw [g.ack_ne m hm]

theorem vote' (g : Grows n h h') {m c : N} {t : Nat} (hc : h.vote m t = some c) :
    h'.vote m t = some c := by
  by_cases hm : m = n
  · rw [hm] at hc ⊢; exact g.vote_le t c hc
  · rw [g.vote_ne m hm]; exact hc

theorem cand' (g : Grows n h h') {m : N} {t : Nat} {p : List E × Nat}
    (hc : h.cand m t = some p) : h'.cand m t = some p := by
  by_cases hm : m = n
  · rw [hm] at hc ⊢; exact g.cand_le t p hc
  · rw [g.cand_ne m hm]; exact hc

theorem sound (g : Grows n h h') {x : List E} (hx : h.Sound P x) : h'.Sound P x := by
  intro i h0 hi
  obtain ⟨r, hr, hp⟩ := hx i h0 hi
  obtain ⟨r', hr', _, _, _, hl⟩ := g.lead hr
  exact ⟨r', hr', hp.trans hl⟩

theorem known (g : Grows n h h') {t i k : Nat} {x : List E} (hk : h.Known t i x k) :
    h'.Known t i x k := by
  rcases hk with rfl | ⟨t₀, i₀, r₀, hc, hr, hle, hp, hlt⟩
  · exact Or.inl rfl
  · obtain ⟨r', hr', _, _, _, hl⟩ := g.lead hr
    exact Or.inr ⟨t₀, i₀, r', g.chosen_le _ _ hc, hr', hle, hp.trans hl, hlt⟩

theorem committed (g : Grows n h h') {t : Nat} {y : List E} (hy : h.Committed t y) :
    h'.Committed t y := by
  rcases hy with rfl | ⟨t₀, i, r, hc, hr, hle, hi, hp⟩
  · exact Or.inl rfl
  · obtain ⟨r', hr', _, _, _, hl⟩ := g.lead hr
    exact Or.inr ⟨t₀, i, r', g.chosen_le _ _ hc, hr', hle, hi, hp.trans hl⟩

theorem displaced (g : Grows n h h') {t u : Nat} {x : List E} (hd : h.Displaced t u x) :
    h'.Displaced t u x := by
  obtain ⟨s, r, hts, hsu, hr, hno⟩ := hd
  obtain ⟨r', hr', _, hs', _⟩ := g.lead hr
  exact ⟨s, r', hts, hsu, hr', by rwa [hs']⟩

end Grows

theorem Displaced.mono {h : History N E} {t u w : Nat} {x : List E} (hd : h.Displaced t u x)
    (huw : u ≤ w) : h.Displaced t w x := by
  obtain ⟨s, r, hts, hsu, hr, hno⟩ := hd
  exact ⟨s, r, hts, by omega, hr, hno⟩

variable [DecidableEq N] (h : History N E)

/-! ## The steps -/

/-- Node `n` moves to term `t`. -/
def bump (n : N) (t : Nat) : History N E := { h with term := update h.term n t }

/-- Node `n` votes for `c` in its current term. -/
def castVote (n c : N) : History N E :=
  { h with
    vote := update h.vote n (update (h.vote n) (h.term n) (some c))
    voteLog := update h.voteLog n (update (h.voteLog n) (h.term n) (h.log n)) }

/-- Node `n` stands for election in term `t` and votes for itself. -/
def stand (n : N) (t : Nat) : History N E :=
  { h with
    term := update h.term n t
    vote := update h.vote n (update (h.vote n) t (some n))
    voteLog := update h.voteLog n (update (h.voteLog n) t (h.log n))
    cand := update h.cand n (update (h.cand n) t (some (h.log n, h.commit n))) }

/-- The record of a leader elected just now. -/
def reign (c : N) : Reign N E where
  who := c
  start := h.log c
  known := h.commit c
  electors := {n | h.vote n (h.term c) = some c}
  log := h.log c

/-- Candidate `c` becomes the leader of its term. -/
def elect (c : N) : History N E :=
  { h with lead := update h.lead (h.term c) (some (h.reign c)) }

/-- The leader of term `t`, whose record is `r`, appends the entry `e`. -/
def extend (t : Nat) (r : Reign N E) (e : E) : History N E :=
  { h with
    log := update h.log r.who (r.log ++ [e])
    lead := update h.lead t (some { r with log := r.log ++ [e] }) }

/-- The log of node `n` becomes `z`. -/
def relog (n : N) (z : List E) : History N E := { h with log := update h.log n z }

/-- Node `n` acknowledges the first `k` entries of its leader. -/
def raise (n : N) (k : Nat) : History N E :=
  { h with
    ack := update h.ack n (update (h.ack n) (h.term n) (max (h.ack n (h.term n)) k)) }

/-- The leader of term `t`, whose record is `r`, finds index `i` committed. -/
def choose (t : Nat) (r : Reign N E) (i : Nat) : History N E :=
  { h with
    commit := update h.commit r.who i
    chosen := fun s j => h.chosen s j ∨ s = t ∧ j = i }

/-- Node `n` learns that its first `i` entries are committed. -/
def learn (n : N) (i : Nat) : History N E := { h with commit := update h.commit n i }

/-- What a log `x` becomes when the entries of `z` are taken over: it stays when
it already holds them. -/
noncomputable def adopt (z x : List E) : List E :=
  open scoped Classical in if z <+: x then x else z

section Adopt

variable {x y z p : List E}

theorem adopt_of_pre (hz : z <+: x) : adopt z x = x := if_pos hz

theorem adopt_of_not_pre (hz : ¬ z <+: x) : adopt z x = z := if_neg hz

theorem pre_adopt (z x : List E) : z <+: adopt z x := by
  by_cases hz : z <+: x
  · rwa [adopt_of_pre hz]
  · rw [adopt_of_not_pre hz]

/-- A prefix that both logs hold survives. -/
theorem adopt_keeps (hx : p <+: x) (hy : p <+: y) (hz : z <+: y) : p <+: adopt z x := by
  by_cases hzx : z <+: x
  · rwa [adopt_of_pre hzx]
  · rw [adopt_of_not_pre hzx]
    rcases List.prefix_or_prefix_of_prefix hy hz with h | h
    · exact h
    · exact absurd (h.trans hx) hzx

end Adopt

variable {h} {P : Protocol N E} {n : N}

/-! ## What a step leaves alone -/

theorem grows_bump {t : Nat} (ht : h.term n ≤ t) : Grows n h (h.bump n t) :=
  { Grows.refl n h with
    term_ne := fun m hm => by simp [bump, hm]
    term_le := by simpa [bump] using ht }

theorem grows_castVote {c : N} (hno : h.vote n (h.term n) = none) :
    Grows n h (h.castVote n c) :=
  { Grows.refl n h with
    vote_ne := fun m hm => by simp [castVote, hm]
    vote_le := fun t d hd => by
      have : t ≠ h.term n := by rintro rfl; rw [hno] at hd; cases hd
      simpa [castVote, this] using hd }

theorem grows_stand {t : Nat} (ht : h.term n ≤ t) (hno : h.vote n t = none)
    (hno' : h.cand n t = none) : Grows n h (h.stand n t) :=
  { Grows.refl n h with
    term_ne := fun m hm => by simp [stand, hm]
    term_le := by simpa [stand] using ht
    vote_ne := fun m hm => by simp [stand, hm]
    cand_ne := fun m hm => by simp [stand, hm]
    vote_le := fun s d hd => by
      have : s ≠ t := by rintro rfl; rw [hno] at hd; cases hd
      simpa [stand, this] using hd
    cand_le := fun s d hd => by
      have : s ≠ t := by rintro rfl; rw [hno'] at hd; cases hd
      simpa [stand, this] using hd }

omit [DecidableEq N] in
theorem grows_elect (hno : h.lead (h.term n) = none) : Grows n h (h.elect n) :=
  { Grows.refl n h with
    lead_other := fun t r hr _ => by
      have : t ≠ h.term n := by rintro rfl; rw [hno] at hr; cases hr
      simpa [elect, this] using hr
    lead_own := fun t r hr hw => by
      have : t ≠ h.term n := by rintro rfl; rw [hno] at hr; cases hr
      exact ⟨r, by simpa [elect, this] using hr, hw, rfl, rfl, List.prefix_refl _⟩
    lead_new := fun t r hn hr => by
      by_cases ht : t = h.term n
      · subst ht
        simp only [elect, update_self] at hr
        cases hr
        rfl
      · simp [elect, ht, hn] at hr }

theorem grows_extend {t : Nat} {r : Reign N E} {e : E} (hr : h.lead t = some r) :
    Grows r.who h (h.extend t r e) :=
  { Grows.refl r.who h with
    log_ne := fun m hm => by simp [extend, hm]
    lead_other := fun s q hq hw => by
      have : s ≠ t := by rintro rfl; rw [hr] at hq; cases hq; exact hw rfl
      simpa [extend, this] using hq
    lead_own := fun s q hq hw => by
      by_cases hs : s = t
      · subst hs
        rw [hr] at hq
        cases hq
        exact ⟨{ r with log := r.log ++ [e] }, by simp [extend], rfl, rfl, rfl,
          List.prefix_append _ _⟩
      · exact ⟨q, by simpa [extend, hs] using hq, hw, rfl, rfl, List.prefix_refl _⟩
    lead_new := fun s q hn hq => by
      by_cases hs : s = t
      · subst hs; rw [hr] at hn; cases hn
      · simp [extend, hs, hn] at hq }

theorem grows_relog (z : List E) : Grows n h (h.relog n z) :=
  { Grows.refl n h with log_ne := fun m hm => by simp [relog, hm] }

theorem grows_raise (k : Nat) : Grows n h (h.raise n k) :=
  { Grows.refl n h with
    ack_ne := fun m hm => by simp [raise, hm]
    ack_le := fun t => by
      by_cases ht : t = h.term n
      · subst ht; simp [raise]
      · simp [raise, ht] }

theorem grows_choose {t i : Nat} {r : Reign N E} (hi : h.commit r.who ≤ i) :
    Grows r.who h (h.choose t r i) :=
  { Grows.refl r.who h with
    commit_ne := fun m hm => by simp [choose, hm]
    commit_le := by simpa [choose] using hi
    chosen_le := fun s j hc => Or.inl hc }

theorem grows_learn {i : Nat} (hi : h.commit n ≤ i) : Grows n h (h.learn n i) :=
  { Grows.refl n h with
    commit_ne := fun m hm => by simp [learn, hm]
    commit_le := by simpa [learn] using hi }

/-! ## The invariant is kept -/

namespace Valid

omit [DecidableEq N] in
theorem vote_none (hv : h.Valid P) {t : Nat} (ht : h.term n < t) : h.vote n t = none := by
  cases hc : h.vote n t with
  | none => rfl
  | some c => have := hv.vote_term hc; omega

omit [DecidableEq N] in
theorem cand_none (hv : h.Valid P) {t : Nat} (ht : h.term n < t) : h.cand n t = none := by
  cases hc : h.cand n t with
  | none => rfl
  | some p => have := hv.cand_term (x := p.1) (k := p.2) hc; omega

omit [DecidableEq N] in
theorem lead_ne (hv : h.Valid P) {t : Nat} {r : Reign N E} (hr : h.lead t = some r)
    (ht : h.term n < t) : r.who ≠ n := by
  rintro rfl
  have := hv.cand_term (hv.lead_cand hr)
  omega

theorem bump (hv : h.Valid P) {t : Nat} (ht : h.term n ≤ t) : (h.bump n t).Valid P := by
  have hterm : ∀ m, h.term m ≤ (h.bump n t).term m := fun m => (grows_bump ht).term_le' m
  -- a node that moves on is not the leader of the term it moves to
  have hold : ∀ {s r}, h.lead s = some r → (h.bump n t).term r.who = s → h.term r.who = s := by
    intro s r hr hs
    by_cases hw : r.who = n
    · have hst : s = t := by rw [← hs, hw]; simp [History.bump]
      have := hv.cand_term (hv.lead_cand hr)
      rw [hw] at this ⊢
      omega
    · rwa [(grows_bump ht).term_ne _ hw] at hs
  exact { hv with
    log_term := fun m e he => Nat.le_trans (hv.log_term m e he) (hterm m)
    commit_known := fun m => (hv.commit_known m).later (by have := hterm m; omega)
    vote_term := fun hc => Nat.le_trans (hv.vote_term hc) (hterm _)
    cand_term := fun hc => Nat.le_trans (hv.cand_term hc) (hterm _)
    lead_log := fun hr hs => hv.lead_log hr (hold hr hs)
    ack_term := fun ha => Nat.le_trans (hv.ack_term ha) (hterm _)
    ack_log := fun {m _ _ _} hr hi => (hv.ack_log hr hi).imp_right
      (fun hd => Displaced.mono hd (by have := hterm m; omega)) }

/-- `h'` comes from `h` by a vote of node `n` for `c` in term `t`. -/
structure Casts (n c : N) (t : Nat) (h h' : History N E) : Prop where
  vote : h'.vote = update h.vote n (update (h.vote n) t (some c))
  voteLog : h'.voteLog = update h.voteLog n (update (h.voteLog n) t (h.log n))

section Casts

variable {h' : History N E} {c m d : N} {t s : Nat}

theorem Casts.cases (hc : Casts n c t h h') (hd : h'.vote m s = some d) :
    (m = n ∧ s = t ∧ d = c ∧ h'.voteLog m s = h.log n) ∨
    (h.vote m s = some d ∧ h'.voteLog m s = h.voteLog m s) := by
  rw [hc.vote] at hd
  rw [hc.voteLog]
  rcases update_update_some hd with ⟨rfl, rfl, rfl⟩ | ⟨hne, hd'⟩
  · exact Or.inl ⟨rfl, rfl, rfl, by simp⟩
  · refine Or.inr ⟨hd', ?_⟩
    rcases update_update_cases h.voteLog n t (h.log n) m s with ⟨hm, hs, _⟩ | ⟨_, he⟩
    · exact absurd hne (by simp [hm, hs])
    · exact he

/-- A vote from before stays, with its log. -/
theorem Casts.kept (hc : Casts n c t h h') (hno : h.vote n t = none) (hd : h.vote m s = some d) :
    h'.vote m s = some d ∧ h'.voteLog m s = h.voteLog m s := by
  have hd' : h'.vote m s = some d := by
    rw [hc.vote]
    rcases update_update_cases h.vote n t (some c) m s with ⟨rfl, rfl, _⟩ | ⟨_, he⟩
    · rw [hno] at hd
      cases hd
    · exact he.trans hd
  rcases hc.cases hd' with ⟨rfl, rfl, _⟩ | ⟨_, hl⟩
  · rw [hno] at hd
    cases hd
  · exact ⟨hd', hl⟩

end Casts

theorem castVote (hv : h.Valid P) {c : N} {x : List E} {k : Nat}
    (hno : h.vote n (h.term n) = none) (hc : h.cand c (h.term n) = some (x, k))
    (hup : P.UpToDate x (h.log n)) : (h.castVote n c).Valid P := by
  have hcasts : Casts n c (h.term n) h (h.castVote n c) := ⟨rfl, rfl⟩
  exact { hv with
    vote_term := fun hd => by
      rcases hcasts.cases hd with ⟨rfl, rfl, _⟩ | ⟨hd', _⟩
      · exact Nat.le_refl _
      · exact hv.vote_term hd'
    vote_cand := fun hd => by
      rcases hcasts.cases hd with ⟨rfl, rfl, rfl, hl⟩ | ⟨hd', hl⟩ <;> rw [hl]
      · exact ⟨x, k, hc, hup⟩
      · exact hv.vote_cand hd'
    vote_sound := fun hd => by
      rcases hcasts.cases hd with ⟨rfl, rfl, rfl, hl⟩ | ⟨hd', hl⟩ <;> rw [hl]
      · exact hv.log_sound _
      · exact hv.vote_sound hd'
    lead_votes := fun hr m hm => (hcasts.kept hno (hv.lead_votes hr m hm)).1
    ack_vote := fun hd hr htu hi => by
      rcases hcasts.cases hd with ⟨rfl, rfl, rfl, hl⟩ | ⟨hd', hl⟩ <;> rw [hl]
      · exact hv.ack_log hr hi
      · exact hv.ack_vote hd' hr htu hi
    ack_elector := fun hq hm hr htu hi => by
      rw [(hcasts.kept hno (hv.lead_votes hq _ hm)).2]
      exact hv.ack_elector hq hm hr htu hi }

theorem stand (hv : h.Valid P) {t : Nat} (ht : h.term n < t) : (h.stand n t).Valid P := by
  have hno := hv.vote_none (n := n) ht
  have hg := grows_stand (Nat.le_of_lt ht) hno (hv.cand_none ht)
  have hterm : ∀ m, h.term m ≤ (h.stand n t).term m := fun m => hg.term_le' m
  have hown : (h.stand n t).term n = t := update_self ..
  have hcasts : Casts n n t h (h.stand n t) := ⟨rfl, rfl⟩
  have hcand : ∀ {m s x k}, (h.stand n t).cand m s = some (x, k) →
      (m = n ∧ s = t ∧ x = h.log n ∧ k = h.commit n) ∨ h.cand m s = some (x, k) := by
    intro m s x k hd
    rcases update_update_some hd with ⟨hm, hs, he⟩ | ⟨_, hd'⟩
    · exact Or.inl ⟨hm, hs, (Prod.mk.inj he).1, (Prod.mk.inj he).2⟩
    · exact Or.inr hd'
  have hself : (h.stand n t).cand n t = some (h.log n, h.commit n) := by simp [History.stand]
  -- a node that stands for a term is not its leader yet
  have hreign : ∀ {s r}, h.lead s = some r → (h.stand n t).term r.who = s → h.term r.who = s := by
    intro s r hr hs
    by_cases hw : r.who = n
    · rw [hw, hown] at hs
      exact absurd hw (hv.lead_ne hr (hs ▸ ht))
    · rwa [hg.term_ne _ hw] at hs
  exact { hv with
    log_term := fun m e he => Nat.le_trans (hv.log_term m e he) (hterm m)
    commit_known := fun m => (hv.commit_known m).later (by have := hterm m; omega)
    vote_term := fun hd => by
      rcases hcasts.cases hd with ⟨rfl, rfl, _⟩ | ⟨hd', _⟩
      · exact Nat.le_of_eq hown.symm
      · exact Nat.le_trans (hv.vote_term hd') (hterm _)
    vote_cand := fun hd => by
      rcases hcasts.cases hd with ⟨rfl, rfl, rfl, hl⟩ | ⟨hd', hl⟩ <;> rw [hl]
      · exact ⟨_, _, hself, UpToDate.refl _⟩
      · obtain ⟨x, k, hc, hup⟩ := hv.vote_cand hd'
        exact ⟨x, k, hg.cand' hc, hup⟩
    vote_sound := fun hd => by
      rcases hcasts.cases hd with ⟨rfl, rfl, rfl, hl⟩ | ⟨hd', hl⟩ <;> rw [hl]
      · exact hv.log_sound _
      · exact hv.vote_sound hd'
    cand_pos := fun hd => by
      rcases hcand hd with ⟨rfl, rfl, _⟩ | hd'
      · omega
      · exact hv.cand_pos hd'
    cand_term := fun hd => by
      rcases hcand hd with ⟨rfl, rfl, _⟩ | hd'
      · exact Nat.le_of_eq hown.symm
      · exact Nat.le_trans (hv.cand_term hd') (hterm _)
    cand_sound := fun hd => by
      rcases hcand hd with ⟨rfl, rfl, rfl, _⟩ | hd'
      · exact hv.log_sound _
      · exact hv.cand_sound hd'
    cand_older := fun hd e he => by
      rcases hcand hd with ⟨rfl, rfl, rfl, _⟩ | hd'
      · exact Nat.lt_of_le_of_lt (hv.log_term _ e he) ht
      · exact hv.cand_older hd' e he
    cand_known := fun hd => by
      rcases hcand hd with ⟨rfl, rfl, rfl, rfl⟩ | hd'
      · exact ⟨hv.commit_le _, (hv.commit_known _).later (by omega)⟩
      · exact hv.cand_known hd'
    lead_cand := fun hr => hg.cand' (hv.lead_cand hr)
    lead_votes := fun hr m hm => (hcasts.kept hno (hv.lead_votes hr m hm)).1
    lead_log := fun hr hs => hv.lead_log hr (hreign hr hs)
    ack_term := fun ha => Nat.le_trans (hv.ack_term ha) (hterm _)
    ack_log := fun {m _ _ _} hr hi => (hv.ack_log hr hi).imp_right
      fun hd => Displaced.mono hd (Nat.succ_le_succ (hterm m))
    ack_vote := fun hd hr htu hi => by
      rcases hcasts.cases hd with ⟨rfl, rfl, rfl, hl⟩ | ⟨hd', hl⟩ <;> rw [hl]
      · exact (hv.ack_log hr hi).imp_right fun hd => Displaced.mono hd (by omega)
      · exact hv.ack_vote hd' hr htu hi
    ack_elector := fun hq hm hr htu hi => by
      rw [(hcasts.kept hno (hv.lead_votes hq _ hm)).2]
      exact hv.ack_elector hq hm hr htu hi }

omit [DecidableEq N] in
theorem elect (hv : h.Valid P) (hno : h.lead (h.term n) = none)
    (hc : h.cand n (h.term n) = some (h.log n, h.commit n))
    (hQ : P.Effective (h.log n) (h.commit n) {m | h.vote m (h.term n) = some n}) :
    (h.elect n).Valid P := by
  have hg := grows_elect hno
  have hlead : ∀ {t r}, (h.elect n).lead t = some r →
      (t = h.term n ∧ r = h.reign n) ∨ (t ≠ h.term n ∧ h.lead t = some r) := fun hr => update_some hr
  have hold : ∀ {t r}, h.lead t = some r → (h.elect n).lead t = some r := by
    intro t r hr
    have hne : t ≠ h.term n := by rintro rfl; rw [hno] at hr; cases hr
    exact (update_of_ne hne ..).trans hr
  -- nobody has acknowledged anything of a leader who was elected just now
  have hnone : ∀ {m i} {x : List E}, i ≤ h.ack m (h.term n) → x.take i = [] := by
    intro m i x hi
    rcases Nat.eq_zero_or_pos (h.ack m (h.term n)) with h0 | h0
    · rw [h0] at hi
      rw [Nat.le_zero.mp hi, List.take_zero]
    · obtain ⟨r, hr, _⟩ := hv.ack_lead h0
      rw [hno] at hr
      cases hr
  exact { hv with
    log_sound := fun m => hg.sound (hv.log_sound m)
    commit_known := fun m => hg.known (hv.commit_known m)
    vote_sound := fun hd => hg.sound (hv.vote_sound hd)
    cand_sound := fun hd => hg.sound (hv.cand_sound hd)
    cand_known := fun hd => ⟨(hv.cand_known hd).1, hg.known (hv.cand_known hd).2⟩
    lead_cand := fun hr => by
      rcases hlead hr with ⟨rfl, rfl⟩ | ⟨_, hr'⟩
      · exact hc
      · exact hv.lead_cand hr'
    lead_quorum := fun hr => by
      rcases hlead hr with ⟨rfl, rfl⟩ | ⟨_, hr'⟩
      · exact hQ
      · exact hv.lead_quorum hr'
    lead_votes := fun hr m hm => by
      rcases hlead hr with ⟨rfl, rfl⟩ | ⟨_, hr'⟩
      · exact hm
      · exact hv.lead_votes hr' m hm
    lead_start := fun hr => by
      rcases hlead hr with ⟨rfl, rfl⟩ | ⟨_, hr'⟩
      · exact List.prefix_refl _
      · exact hv.lead_start hr'
    lead_own := fun hr e he => by
      rcases hlead hr with ⟨rfl, rfl⟩ | ⟨_, hr'⟩
      · simp [reign] at he
      · exact hv.lead_own hr' e he
    lead_log := fun hr hs => by
      rcases hlead hr with ⟨rfl, rfl⟩ | ⟨_, hr'⟩
      · rfl
      · exact hv.lead_log hr' hs
    lead_commit := fun hr hci => by
      obtain ⟨q, hq, _⟩ := hv.chosen_spec hci
      cases (hold hq).symm.trans hr
      exact hv.lead_commit hq hci
    lead_conf := fun hr hab hb hca hcb => by
      rcases hlead hr with ⟨rfl, rfl⟩ | ⟨_, hr'⟩
      · exact absurd hcb.le_length (by simpa [reign] using hb)
      · exact hg.known (hv.lead_conf hr' hab hb hca hcb)
    chosen_spec := fun hci => by
      obtain ⟨r, hr, h0, hi, ht, k, hk, hki, hE⟩ := hv.chosen_spec hci
      exact ⟨r, hold hr, h0, hi, ht, k, hg.known hk, hki, hE⟩
    ack_lead := fun ha => by
      obtain ⟨r, hr, hle⟩ := hv.ack_lead ha
      exact ⟨r, hold hr, hle⟩
    ack_log := fun hr hi => by
      rcases hlead hr with ⟨rfl, rfl⟩ | ⟨_, hr'⟩
      · exact Or.inl (hnone hi ▸ List.nil_prefix)
      · exact (hv.ack_log hr' hi).imp_right hg.displaced
    ack_vote := fun hd hr htu hi => by
      rcases hlead hr with ⟨rfl, rfl⟩ | ⟨_, hr'⟩
      · exact Or.inl (hnone hi ▸ List.nil_prefix)
      · exact (hv.ack_vote hd hr' htu hi).imp_right hg.displaced
    ack_elector := fun hq hm hr htu hi => by
      rcases hlead hr with ⟨rfl, rfl⟩ | ⟨_, hr'⟩
      · exact Or.inl (hnone hi ▸ List.nil_prefix)
      rcases hlead hq with ⟨rfl, rfl⟩ | ⟨_, hq'⟩
      · -- the leader that displaced a prefix cannot be the one elected just now
        rcases hv.ack_vote hm hr' htu hi with hp | ⟨s, p, hts, hsu, hp, hdis⟩
        · exact Or.inl hp
        · have hne : s ≠ h.term n := by rintro rfl; rw [hno] at hp; cases hp
          exact Or.inr ⟨s, p, hts, by omega, hold hp, hdis⟩
      · exact (hv.ack_elector hq' hm hr' htu hi).imp_right hg.displaced }

omit [DecidableEq N] in
/-- In its own term a leader knows what it has committed, in front of every later index. -/
theorem lead_knows (hv : h.Valid P) {t b : Nat} {r : Reign N E} (hr : h.lead t = some r)
    (ht : h.term r.who = t) (hb : h.commit r.who < b) : h.Known t b r.log (h.commit r.who) := by
  have hk := hv.commit_known r.who
  rw [hv.lead_log hr ht, ht] at hk
  rcases hk with h0 | ⟨t₀, i₀, r₀, hc₀, hr₀, hle₀, hp₀, hlt₀⟩
  · exact Or.inl h0
  · refine Or.inr ⟨t₀, i₀, r₀, hc₀, hr₀, hle₀, hp₀, ?_⟩
    rcases Nat.lt_or_ge t₀ t with hlt | hge
    · exact Or.inl hlt
    · have hts : t₀ = t := by omega
      subst hts
      exact Or.inr ⟨rfl, Nat.lt_of_le_of_lt (hv.lead_commit hr hc₀) hb⟩

/-! ### A leader appends an entry -/

section Extend

variable {t : Nat} {r : Reign N E} {e : E}

/-- A leader of the extended history is one from before, but for a longer log. -/
theorem lead_extend (hr : h.lead t = some r) {s : Nat} {q : Reign N E}
    (hq : (h.extend t r e).lead s = some q) :
    ∃ q₀, h.lead s = some q₀ ∧ q₀.log <+: q.log ∧ q = { q₀ with log := q.log } := by
  rcases update_some hq with ⟨rfl, rfl⟩ | ⟨_, hq'⟩
  · exact ⟨r, hr, List.prefix_append _ _, rfl⟩
  · exact ⟨q, hq', List.prefix_refl _, rfl⟩

omit [DecidableEq N] in
/-- What is acknowledged of a leader stays when its log grows. -/
theorem ack_take (hv : h.Valid P) {s i : Nat} {m : N} {q : Reign N E} {x : List E}
    (hq : h.lead s = some q) (hp : q.log <+: x) (hi : i ≤ h.ack m s) :
    x.take i = q.log.take i := by
  rcases Nat.eq_zero_or_pos (h.ack m s) with h0 | h0
  · simp [show i = 0 by omega]
  · obtain ⟨q', hq', hle⟩ := hv.ack_lead h0
    cases hq.symm.trans hq'
    exact take_eq_of_pre hp (Nat.le_trans hi hle)

theorem sound_extend (hv : h.Valid P) (hr : h.lead t = some r) (he : P.term e = t) :
    (h.extend t r e).Sound P (r.log ++ [e]) := by
  have hpre : r.log <+: r.log ++ [e] := List.prefix_append _ _
  intro i h0 hi
  by_cases hlen : i ≤ r.log.length
  · obtain ⟨q, hq, hp⟩ := (grows_extend hr).sound (hv.lead_sound hr) i h0 hlen
    exact ⟨q, by rwa [termAt_of_pre hpre hlen], by rwa [take_eq_of_pre hpre hlen]⟩
  · rw [List.length_append, List.length_singleton] at hi
    obtain rfl : i = r.log.length + 1 := by omega
    refine ⟨{ r with log := r.log ++ [e] }, ?_, List.take_prefix _ _⟩
    rw [termAt_append_length, he]
    exact update_self ..

omit [DecidableEq N] in
/-- A new change of voters comes after all others are known to be committed. -/
theorem conf_extend (hv : h.Valid P) (hr : h.lead t = some r) (ht : h.term r.who = t)
    (hconf : P.conf e → ∀ a, P.ConfAt r.log a → a ≤ h.commit r.who) {a b : Nat} (hab : a < b)
    (hb : r.start.length < b) (hca : P.ConfAt (r.log ++ [e]) a) (hcb : P.ConfAt (r.log ++ [e]) b) :
    h.Known t b (r.log ++ [e]) a := by
  have hlen := hcb.le_length
  rw [List.length_append, List.length_singleton] at hlen
  have htake : ∀ j, j ≤ r.log.length → (r.log ++ [e]).take j = r.log.take j :=
    fun j hj => take_eq_of_pre (List.prefix_append _ _) hj
  have hca' : P.ConfAt r.log a := (confAt_eq_of_take (htake a (by omega)) (Nat.le_refl a)).mp hca
  refine Known.congr ?_ (Nat.le_refl a) (htake a (by omega)).symm
  by_cases hbl : b ≤ r.log.length
  · exact hv.lead_conf hr hab hb hca' ((confAt_eq_of_take (htake b hbl) (Nat.le_refl b)).mp hcb)
  · -- the new entry is the change
    obtain rfl : b = r.log.length + 1 := by omega
    obtain ⟨f, hf, hcf⟩ := (confAt_succ _ _).mp hcb
    rw [List.getElem?_concat_length, Option.some.injEq] at hf
    have hle := hv.commit_le r.who
    rw [hv.lead_log hr ht] at hle
    exact (hv.lead_knows hr ht (Nat.lt_succ_of_le hle)).le (hconf (hf ▸ hcf) a hca')

theorem extend (hv : h.Valid P) (hr : h.lead t = some r) (ht : h.term r.who = t)
    (he : P.term e = t) (hconf : P.conf e → ∀ a, P.ConfAt r.log a → a ≤ h.commit r.who) :
    (h.extend t r e).Valid P := by
  have hg := grows_extend (e := e) hr
  have hlog := hv.lead_log hr ht
  have hlogs : ∀ m, (m = r.who ∧ (h.extend t r e).log m = r.log ++ [e]) ∨
      (m ≠ r.who ∧ (h.extend t r e).log m = h.log m) := update_cases h.log r.who (r.log ++ [e])
  have hgrown : ∀ m, h.log m <+: (h.extend t r e).log m := by
    intro m
    rcases hlogs m with ⟨rfl, hl⟩ | ⟨_, hl⟩ <;> rw [hl]
    exact hlog ▸ List.prefix_append _ _
  exact { hv with
    log_sound := fun m => by
      rcases hlogs m with ⟨rfl, hl⟩ | ⟨_, hl⟩ <;> rw [hl]
      · exact hv.sound_extend hr he
      · exact hg.sound (hv.log_sound m)
    log_term := fun m f hf => by
      rcases hlogs m with ⟨rfl, hl⟩ | ⟨_, hl⟩ <;> rw [hl] at hf
      · rcases List.mem_append.mp hf with hf | hf
        · exact hv.log_term r.who f (hlog ▸ hf)
        · rw [List.mem_singleton.mp hf]
          exact Nat.le_of_eq (he.trans ht.symm)
      · exact hv.log_term m f hf
    commit_le := fun m => Nat.le_trans (hv.commit_le m) (hgrown m).length_le
    commit_known := fun m => (hg.known (hv.commit_known m)).congr (Nat.le_refl _)
      (take_eq_of_pre (hgrown m) (hv.commit_le m)).symm
    vote_sound := fun hd => hg.sound (hv.vote_sound hd)
    cand_sound := fun hd => hg.sound (hv.cand_sound hd)
    cand_known := fun hd => ⟨(hv.cand_known hd).1, hg.known (hv.cand_known hd).2⟩
    lead_cand := fun hq => by
      obtain ⟨q₀, hq₀, _, heq⟩ := lead_extend hr hq
      have hold := hv.lead_cand hq₀
      rw [heq]
      exact hold
    lead_quorum := fun hq => by
      obtain ⟨q₀, hq₀, _, heq⟩ := lead_extend hr hq
      have hold := hv.lead_quorum hq₀
      rw [heq]
      exact hold
    lead_votes := fun hq => by
      obtain ⟨q₀, hq₀, _, heq⟩ := lead_extend hr hq
      have hold := hv.lead_votes hq₀
      rw [heq]
      exact hold
    lead_start := fun hq => by
      obtain ⟨q₀, hq₀, hp, heq⟩ := lead_extend hr hq
      rw [heq]
      exact (hv.lead_start hq₀).trans hp
    lead_own := fun hq f hf => by
      rcases update_some hq with ⟨rfl, rfl⟩ | ⟨_, hq'⟩
      · rw [List.drop_append_of_le_length (hv.lead_start hr).length_le] at hf
        rcases List.mem_append.mp hf with hf | hf
        · exact hv.lead_own hr f hf
        · rw [List.mem_singleton.mp hf]
          exact he
      · exact hv.lead_own hq' f hf
    lead_log := fun {s q} hq hs => by
      rcases update_some hq with ⟨rfl, rfl⟩ | ⟨hne, hq'⟩
      · exact update_self ..
      · rcases hlogs q.who with ⟨hw, _⟩ | ⟨_, hl⟩
        · replace hs : h.term q.who = s := hs
          rw [hw, ht] at hs
          exact absurd hs.symm hne
        · exact hl.trans (hv.lead_log hq' hs)
    lead_commit := fun hq hci => by
      obtain ⟨q₀, hq₀, _, heq⟩ := lead_extend hr hq
      have hold := hv.lead_commit hq₀ hci
      rw [heq]
      exact hold
    lead_conf := fun hq hab hb hca hcb => by
      rcases update_some hq with ⟨rfl, rfl⟩ | ⟨_, hq'⟩
      · exact hg.known (hv.conf_extend hr ht hconf hab hb hca hcb)
      · exact hg.known (hv.lead_conf hq' hab hb hca hcb)
    chosen_spec := fun hci => by
      obtain ⟨q, hq, h0, hi, hti, k, hk, hki, hE⟩ := hv.chosen_spec hci
      obtain ⟨q', hq', _, _, _, hp⟩ := hg.lead hq
      have htake := take_eq_of_pre hp hi
      refine ⟨q', hq', h0, Nat.le_trans hi hp.length_le, ?_, k, ?_, hki, htake.symm ▸ hE⟩
      · rwa [termAt_of_pre hp hi]
      · exact (hg.known hk).congr hki htake.symm
    ack_lead := fun ha => by
      obtain ⟨q, hq, hle⟩ := hv.ack_lead ha
      obtain ⟨q', hq', _, _, _, hp⟩ := hg.lead hq
      exact ⟨q', hq', Nat.le_trans hle hp.length_le⟩
    ack_log := fun {m _ _ _} hq hi => by
      obtain ⟨q₀, hq₀, hp, _⟩ := lead_extend hr hq
      rw [hv.ack_take hq₀ hp hi]
      exact (hv.ack_log hq₀ hi).imp (·.trans (hgrown m)) hg.displaced
    ack_vote := fun hd hq hsu hi => by
      obtain ⟨q₀, hq₀, hp, _⟩ := lead_extend hr hq
      rw [hv.ack_take hq₀ hp hi]
      exact (hv.ack_vote hd hq₀ hsu hi).imp_right hg.displaced
    ack_elector := fun hl hm hq hsu hi => by
      obtain ⟨q₀, hq₀, hp, _⟩ := lead_extend hr hq
      obtain ⟨l₀, hl₀, _, heq⟩ := lead_extend hr hl
      rw [heq] at hm
      rw [hv.ack_take hq₀ hp hi]
      exact (hv.ack_elector hl₀ hm hq₀ hsu hi).imp_right hg.displaced }

end Extend

/-- Replacing a log by one that still holds what was acknowledged and committed. -/
theorem relog (hv : h.Valid P) {z : List E} (hs : h.Sound P z)
    (hterm : ∀ e ∈ z, P.term e ≤ h.term n) (hlen : h.commit n ≤ z.length)
    (hcommit : z.take (h.commit n) = (h.log n).take (h.commit n))
    (hlead : ∀ r, h.lead (h.term n) = some r → r.who = n → z = h.log n)
    (hack : ∀ t r i, h.lead t = some r → t ≤ h.term n → i ≤ r.log.length →
      r.log.take i <+: h.log n → r.log.take i <+: z ∨
        h.Displaced t (h.term n + 1) (r.log.take i)) : (h.relog n z).Valid P := by
  have hlogs : ∀ m, (m = n ∧ (h.relog n z).log m = z) ∨
      (m ≠ n ∧ (h.relog n z).log m = h.log m) := update_cases h.log n z
  refine { hv with
    log_sound := ?_, log_term := ?_, commit_le := ?_, commit_known := ?_, lead_log := ?_,
    ack_log := ?_ }
  · intro m
    rcases hlogs m with ⟨rfl, hl⟩ | ⟨_, hl⟩ <;> rw [hl]
    · exact hs
    · exact hv.log_sound m
  · intro m
    rcases hlogs m with ⟨rfl, hl⟩ | ⟨_, hl⟩ <;> rw [hl]
    · exact hterm
    · exact hv.log_term m
  · intro m
    rcases hlogs m with ⟨rfl, hl⟩ | ⟨_, hl⟩ <;> rw [hl]
    · exact hlen
    · exact hv.commit_le m
  · intro m
    rcases hlogs m with ⟨rfl, hl⟩ | ⟨_, hl⟩ <;> rw [hl]
    · exact (hv.commit_known m).congr (Nat.le_refl _) hcommit.symm
    · exact hv.commit_known m
  · intro t r hr ht
    rcases hlogs r.who with ⟨hw, hl⟩ | ⟨_, hl⟩ <;> rw [hl]
    · have ht' : h.term n = t := by rw [← hw]; exact ht
      rw [hlead r (by rw [ht']; exact hr) hw, ← hw]
      exact hv.lead_log hr ht
    · exact hv.lead_log hr ht
  · intro m t r i hr hi
    rcases hlogs m with ⟨rfl, hl⟩ | ⟨_, hl⟩ <;> rw [hl]
    · rcases hv.ack_log hr hi with hp | hd
      · rcases Nat.eq_zero_or_pos i with h0 | h0
        · exact Or.inl (by simp [h0])
        · have hpos : 0 < h.ack m t := Nat.lt_of_lt_of_le h0 hi
          obtain ⟨r', hr', hle⟩ := hv.ack_lead hpos
          cases Option.some.inj (hr.symm.trans hr')
          have hi' : i ≤ h.ack m t := hi
          exact hack t r i hr (hv.ack_term hpos) (by omega) hp
      · exact Or.inr hd
    · exact hv.ack_log hr hi

/-- Taking over a prefix of the log of the current leader. -/
theorem accept (hv : h.Valid P) {r : Reign N E} {z : List E}
    (hr : h.lead (h.term n) = some r) (hz : z <+: r.log) :
    (h.relog n (adopt z (h.log n))).Valid P := by
  have hcommit : (h.log n).take (h.commit n) <+: adopt z (h.log n) :=
    adopt_keeps (List.take_prefix _ _)
      (hv.lead_known hr (hv.commit_known n) (hv.commit_le n)) hz
  refine hv.relog ?_ ?_ (le_length_of_takes hcommit (hv.commit_le n))
    (take_eq_of_takes hcommit (hv.commit_le n)) ?_ ?_
  · by_cases he : z <+: h.log n
    · rw [adopt_of_pre he]; exact hv.log_sound n
    · rw [adopt_of_not_pre he]; exact (hv.lead_sound hr).of_pre hz
  · intro e hmem
    by_cases he : z <+: h.log n
    · rw [adopt_of_pre he] at hmem; exact hv.log_term n e hmem
    · rw [adopt_of_not_pre he] at hmem; exact hv.lead_term_le hr (hz.subset hmem)
  · intro q hq hw
    rw [hr] at hq
    cases hq
    have hlog := hv.lead_log hr (by rw [hw])
    rw [hw] at hlog
    exact adopt_of_pre (by rwa [hlog])
  · intro t q i hq ht hi hp
    rcases Nat.lt_or_ge t (h.term n) with hlt | hge
    · by_cases hpr : q.log.take i <+: r.start
      · exact Or.inl (adopt_keeps hp (hpr.trans (hv.lead_start hr)) hz)
      · exact Or.inr ⟨h.term n, r, hlt, by omega, hr, hpr⟩
    · have : t = h.term n := by omega
      subst this
      rw [hr] at hq
      cases hq
      exact Or.inl (adopt_keeps hp (List.take_prefix _ _) hz)

/-- Taking over a committed prefix. -/
theorem install (hv : h.Valid P) {z : List E} (hz : h.Committed (h.term n) z) :
    (h.relog n (adopt z (h.log n))).Valid P := by
  have hmine := (hv.commit_known n).committed (hv.commit_le n)
  have hcommit : (h.log n).take (h.commit n) <+: adopt z (h.log n) := by
    rcases hv.committed_agree hmine hz with hle | hle
    · exact adopt_keeps (List.take_prefix _ _) hle (List.prefix_refl z)
    · rw [adopt_of_pre (hle.trans (List.take_prefix _ _))]
      exact List.take_prefix _ _
  refine hv.relog ?_ ?_ (le_length_of_takes hcommit (hv.commit_le n))
    (take_eq_of_takes hcommit (hv.commit_le n)) ?_ ?_
  · by_cases he : z <+: h.log n
    · rw [adopt_of_pre he]; exact hv.log_sound n
    · rw [adopt_of_not_pre he]; exact hv.committed_sound hz
  · intro e hmem
    by_cases he : z <+: h.log n
    · rw [adopt_of_pre he] at hmem; exact hv.log_term n e hmem
    · rw [adopt_of_not_pre he] at hmem
      exact hv.committed_term hz hmem
  · intro q hq hw
    have hlog := hv.lead_log hq (by rw [hw])
    rw [hw] at hlog
    refine adopt_of_pre ?_
    rw [hlog]
    exact hv.committed_lead hq hz
  · intro s q j hq hs hj hp
    rcases hz with rfl | ⟨t, i, r, hc, hr, ht, hzi, hzr⟩
    · exact Or.inl (by rwa [adopt_of_pre List.nil_prefix])
    rcases Nat.lt_or_ge s t with hlt | hge
    · by_cases hpr : q.log.take j <+: r.start
      · exact Or.inl (adopt_keeps hp (hpr.trans (hv.lead_start hr)) hzr)
      · exact Or.inr ⟨t, r, hlt, by omega, hr, hpr⟩
    · -- the acknowledged leader came later, so it holds the committed prefix
      have hzq := hv.committed_lead hq (Or.inr ⟨t, i, r, hc, hr, hge, hzi, hzr⟩)
      exact Or.inl (adopt_keeps hp (List.take_prefix _ _) hzq)

theorem raise (hv : h.Valid P) {r : Reign N E} {k : Nat} (hr : h.lead (h.term n) = some r)
    (hk : k ≤ r.log.length) (hp : r.log.take k <+: h.log n) : (h.raise n k).Valid P := by
  have hack : ∀ m t, (m = n ∧ t = h.term n ∧ (h.raise n k).ack m t = max (h.ack m t) k) ∨
      ((m ≠ n ∨ t ≠ h.term n) ∧ (h.raise n k).ack m t = h.ack m t) := by
    intro m t
    rcases update_update_cases h.ack n (h.term n) (max (h.ack n (h.term n)) k) m t with
      ⟨rfl, rfl, he⟩ | hold
    · exact Or.inl ⟨rfl, rfl, he⟩
    · exact Or.inr hold
  -- in earlier terms nothing changes
  have hearly : ∀ m t u, t < u → u ≤ h.term m → (h.raise n k).ack m t = h.ack m t := by
    intro m t u htu hu
    rcases hack m t with ⟨rfl, rfl, _⟩ | ⟨_, he⟩
    · omega
    · exact he
  refine { hv with
    chosen_spec := ?_, ack_term := ?_, ack_lead := ?_, ack_log := ?_, ack_vote := ?_,
    ack_elector := ?_ }
  · intro t i hc
    obtain ⟨q, hq, h0, hi, hti, j, hj, hji, hE⟩ := hv.chosen_spec hc
    refine ⟨q, hq, h0, hi, hti, j, hj, hji, hE.mono ?_⟩
    intro m hm
    have hm' : i ≤ h.ack m t := hm
    rcases hack m t with ⟨_, _, he⟩ | ⟨_, he⟩
    · show i ≤ _
      rw [he]
      exact Nat.le_trans hm' (Nat.le_max_left _ _)
    · show i ≤ _
      rw [he]
      exact hm'
  · intro m t ha
    rcases hack m t with ⟨rfl, rfl, _⟩ | ⟨_, he⟩
    · exact Nat.le_refl _
    · rw [he] at ha; exact hv.ack_term ha
  · intro m t ha
    rcases hack m t with ⟨rfl, rfl, he⟩ | ⟨_, he⟩
    · refine ⟨r, hr, ?_⟩
      rw [he]
      rcases Nat.eq_zero_or_pos (h.ack m (h.term m)) with h0 | h0
      · omega
      · obtain ⟨q, hq, hle⟩ := hv.ack_lead h0
        rw [hr] at hq
        cases hq
        omega
    · rw [he] at ha ⊢; exact hv.ack_lead ha
  · intro m t q i hq hi
    rcases hack m t with ⟨rfl, rfl, he⟩ | ⟨_, he⟩
    · rw [he] at hi
      rcases Nat.le_total i (h.ack m (h.term m)) with hle | hle
      · exact hv.ack_log hq hle
      · have hr' : h.lead (h.term m) = some q := hq
        rw [hr] at hr'
        cases hr'
        rcases Nat.lt_or_ge k i with hik | hik
        · exact hv.ack_log hq (by omega)
        · exact Or.inl (take_prefix_mono hik hp)
    · rw [he] at hi; exact hv.ack_log hq hi
  · intro m t u c q i hd hq htu hi
    rw [hearly m t u htu (hv.vote_term hd)] at hi
    exact hv.ack_vote hd hq htu hi
  · intro m t u p q i hp' hm hq htu hi
    rw [hearly m t u htu (hv.vote_term (hv.lead_votes hp' m hm))] at hi
    exact hv.ack_elector hp' hm hq htu hi

theorem choose (hv : h.Valid P) {t i : Nat} {r : Reign N E} (hr : h.lead t = some r)
    (ht : h.term r.who = t) (hlt : h.commit r.who < i) (hi : i ≤ r.log.length)
    (hti : P.termAt r.log i = t)
    (hE : P.Effective (r.log.take i) (h.commit r.who) {n | i ≤ h.ack n t}) :
    (h.choose t r i).Valid P := by
  have hg := grows_choose (t := t) (r := r) (Nat.le_of_lt hlt)
  have hlog := hv.lead_log hr ht
  have hcommit : ∀ m, (m = r.who ∧ (h.choose t r i).commit m = i) ∨
      (m ≠ r.who ∧ (h.choose t r i).commit m = h.commit m) := update_cases h.commit r.who i
  refine { hv with
    commit_le := ?_, commit_known := ?_
    cand_known := fun hd => ⟨(hv.cand_known hd).1, hg.known (hv.cand_known hd).2⟩
    lead_commit := ?_
    lead_conf := fun hq hab hb hca hcb => hg.known (hv.lead_conf hq hab hb hca hcb)
    chosen_spec := ?_ }
  · intro m
    rcases hcommit m with ⟨rfl, he⟩ | ⟨_, he⟩ <;> rw [he]
    · show i ≤ (h.log r.who).length
      rwa [hlog]
    · exact hv.commit_le m
  · intro m
    rcases hcommit m with ⟨rfl, he⟩ | ⟨_, he⟩ <;> rw [he]
    · show (h.choose t r i).Known (h.term r.who + 1) 0 (h.log r.who) i
      rw [hlog, ht]
      exact Or.inr ⟨t, i, r, Or.inr ⟨rfl, rfl⟩, hr, Nat.le_refl i, List.take_prefix _ _,
        Or.inl (Nat.lt_succ_self t)⟩
    · exact hg.known (hv.commit_known m)
  · intro s q j hq hc
    rcases hc with hc | ⟨rfl, rfl⟩
    · have := hv.lead_commit hq hc
      exact Nat.le_trans this (hg.commit_le' q.who)
    · have hq' : h.lead s = some q := hq
      rw [hr] at hq'
      cases hq'
      rcases hcommit r.who with ⟨_, he⟩ | ⟨hne, _⟩
      · rw [he]
      · exact absurd rfl hne
  · intro s j hc
    rcases hc with hc | ⟨rfl, rfl⟩
    · obtain ⟨q, hq, h0, hj, hqj, k, hk, hkj, hQ⟩ := hv.chosen_spec hc
      exact ⟨q, hq, h0, hj, hqj, k, hg.known hk, hkj, hQ⟩
    · exact ⟨r, hr, by omega, hi, hti, h.commit r.who, hg.known (hv.lead_knows hr ht hlt),
        Nat.le_of_lt hlt, hE⟩

theorem learn (hv : h.Valid P) {i : Nat} (hle : h.commit n ≤ i) (hi : i ≤ (h.log n).length)
    (hk : h.Known (h.term n + 1) 0 (h.log n) i) : (h.learn n i).Valid P := by
  have hg := grows_learn (h := h) hle
  have hcommit : ∀ m, (m = n ∧ (h.learn n i).commit m = i) ∨
      (m ≠ n ∧ (h.learn n i).commit m = h.commit m) := update_cases h.commit n i
  refine { hv with commit_le := ?_, commit_known := ?_, lead_commit := ?_ }
  · intro m
    rcases hcommit m with ⟨rfl, he⟩ | ⟨_, he⟩ <;> rw [he]
    · exact hi
    · exact hv.commit_le m
  · intro m
    rcases hcommit m with ⟨rfl, he⟩ | ⟨_, he⟩ <;> rw [he]
    · exact hk
    · exact hv.commit_known m
  · intro s q j hq hc
    exact Nat.le_trans (hv.lead_commit hq hc) (hg.commit_le' q.who)

omit [DecidableEq N] in
/-- Nothing has been promised in the empty history. -/
theorem empty : (History.empty : History N E).Valid P where
  log_sound _ := fun i h0 hi => by simp [History.empty] at hi; omega
  log_term _ := fun e he => by simp [History.empty] at he
  commit_le _ := Nat.zero_le _
  commit_known _ := Or.inl rfl
  vote_term hc := by cases hc
  vote_cand hc := by cases hc
  vote_sound hc := by cases hc
  cand_pos hc := by cases hc
  cand_term hc := by cases hc
  cand_sound hc := by cases hc
  cand_older hc := by cases hc
  cand_known hc := by cases hc
  lead_cand hr := by cases hr
  lead_quorum hr := by cases hr
  lead_votes hr := by cases hr
  lead_start hr := by cases hr
  lead_own hr := by cases hr
  lead_log hr := by cases hr
  lead_commit hr := by cases hr
  lead_conf hr := by cases hr
  chosen_spec hc := hc.elim
  ack_term ha := absurd ha (Nat.lt_irrefl 0)
  ack_lead ha := absurd ha (Nat.lt_irrefl 0)
  ack_log hr := by cases hr
  ack_vote hc := by cases hc
  ack_elector hq := by cases hq

end Valid

/-! ## Runs -/

section Runs

variable {N E : Type}

/-- Any nodes made the steps between the two histories. -/
def Later : History N E → History N E → Prop :=
  Relation.ReflTransGen fun h h' => ∃ n, Grows n h h'

namespace Later

variable {h h' : History N E}

theorem refl (h : History N E) : Later h h := Relation.ReflTransGen.refl

theorem of_grows {n : N} (g : Grows n h h') : Later h h' := Relation.ReflTransGen.single ⟨n, g⟩

theorem trans {h'' : History N E} (l : Later h h') (l' : Later h' h'') : Later h h'' :=
  Relation.ReflTransGen.trans l l'

/-- What every step keeps is kept. -/
theorem keeps {p : History N E → Prop} (hp : ∀ {n h h'}, Grows n h h' → p h → p h')
    (l : Later h h') (h0 : p h) : p h' := by
  induction l with
  | refl => exact h0
  | tail _ g ih =>
    obtain ⟨_, g⟩ := g
    exact hp g ih

theorem committed (l : Later h h') {t : Nat} {y : List E} (hy : h.Committed t y) :
    h'.Committed t y :=
  l.keeps (fun g => g.committed) hy

theorem lead (l : Later h h') {t : Nat} {n : N} (hr : ∃ r, h.lead t = some r ∧ r.who = n) :
    ∃ r, h'.lead t = some r ∧ r.who = n := by
  refine l.keeps (p := fun h => ∃ r, h.lead t = some r ∧ r.who = n) ?_ hr
  rintro _ _ _ g ⟨r, hr, hw⟩
  obtain ⟨r', hr', hw', _⟩ := g.lead hr
  exact ⟨r', hr', hw'.trans hw⟩

end Later

end Runs

end History

end QuorumLog
