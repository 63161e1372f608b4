import Promtact.QuorumLog.History

/-!
# A replicated log with changing quorums: what the invariant implies

Everything here is a consequence of `History.Valid` at one moment; no step is
looked at.

1. `Sound.matching`: two sound logs with the same term at an index agree up to it.
2. `lead_complete`: a leader starts with everything chosen in earlier terms. The
   induction is on the term of the leader and, inside, on the pair of term and
   index of the choice. The two quorums are compared at the longest common
   prefix of the chosen prefix and the candidate's log: behind it each of the two
   has at most one change of voters, and that one is not yet known to be
   committed, because whatever is known is shared by the induction hypothesis.
3. `elected_unique`: two candidates elected in one term are the same node.
4. `known_agree`: two committed prefixes agree.
-/

namespace QuorumLog

open Protocol

namespace History

variable {N E : Type} {P : Protocol N E} {h : History N E}

/-! ## Sound logs -/

theorem Sound.take {x : List E} (hs : h.Sound P x) (i : Nat) : h.Sound P (x.take i) := by
  intro j h0 hj
  have hlen : (x.take i).length = min i x.length := List.length_take
  obtain ⟨r, hr, hp⟩ := hs j h0 (by omega)
  refine ⟨r, ?_, ?_⟩
  · rwa [termAt_take (by omega)]
  · rwa [take_take_of_le (by omega)]

theorem Sound.of_pre {x y : List E} (hs : h.Sound P y) (hp : x <+: y) : h.Sound P x := by
  have : y.take x.length = x := by
    rw [take_eq_of_pre hp (Nat.le_refl _), List.take_length]
  rw [← this]
  exact hs.take _

namespace Valid

theorem lead_sound (hv : h.Valid P) {t : Nat} {r : Reign N E} (hr : h.lead t = some r) :
    h.Sound P r.log := by
  intro i h0 hi
  by_cases hs : i ≤ r.start.length
  · obtain ⟨q, hq, hp⟩ := hv.cand_sound (hv.lead_cand hr) i h0 hs
    have ht := take_eq_of_pre (hv.lead_start hr) hs
    exact ⟨q, by rwa [termAt_of_pre (hv.lead_start hr) hs], by rwa [ht]⟩
  · -- an entry past the start was appended by this leader
    obtain ⟨e, _, hget, hte⟩ := termAt_mem (P := P) h0 hi
    have hmem : e ∈ r.log.drop r.start.length := by
      apply List.mem_of_getElem? (i := i - 1 - r.start.length)
      rw [List.getElem?_drop, show r.start.length + (i - 1 - r.start.length) = i - 1 by omega]
      exact hget
    exact ⟨r, by rw [hte, hv.lead_own hr e hmem]; exact hr, List.take_prefix _ _⟩

theorem lead_pos (hv : h.Valid P) {t : Nat} {r : Reign N E} (hr : h.lead t = some r) : 0 < t :=
  hv.cand_pos (hv.lead_cand hr)

theorem lead_term_le (hv : h.Valid P) {t : Nat} {r : Reign N E} (hr : h.lead t = some r)
    {e : E} (he : e ∈ r.log) : P.term e ≤ t := by
  obtain ⟨z, hz⟩ := hv.lead_start hr
  rw [← hz] at he
  rcases List.mem_append.mp he with hs | hs
  · exact Nat.le_of_lt (hv.cand_older (hv.lead_cand hr) e hs)
  · have : r.log.drop r.start.length = z := by rw [← hz]; simp
    exact Nat.le_of_eq (hv.lead_own hr e (by rwa [this]))

/-- The terms in the log of a leader do not decrease. -/
theorem lead_mono (hv : h.Valid P) : ∀ (t : Nat) {r : Reign N E}, h.lead t = some r →
    ∀ {a b : Nat}, a ≤ b → b ≤ r.log.length → P.termAt r.log a ≤ P.termAt r.log b := by
  intro t
  induction t using Nat.strong_induction_on with
  | _ t ih =>
    intro r hr a b hab hb
    by_cases h0 : a = 0
    · rw [h0]; exact Nat.zero_le _
    obtain ⟨e, he, _, hte⟩ := termAt_mem (P := P) (x := r.log) (i := a) (by omega) (by omega)
    obtain ⟨f, hf, hget, htf⟩ := termAt_mem (P := P) (x := r.log) (i := b) (by omega) hb
    by_cases hs : b ≤ r.start.length
    · -- inside the start the leader of the entry's own term decides
      have hpre := hv.lead_start hr
      have hfb : P.termAt r.start b < t := by
        obtain ⟨g, hg, _, htg⟩ := termAt_mem (P := P) (x := r.start) (i := b) (by omega) hs
        rw [htg]
        exact hv.cand_older (hv.lead_cand hr) g hg
      obtain ⟨q, hq, hp⟩ := hv.cand_sound (hv.lead_cand hr) b (by omega) hs
      have hbq : b ≤ q.log.length := le_length_of_takes hp hs
      have := ih _ hfb hq hab hbq
      have heq := take_eq_of_takes hp hs
      rw [termAt_eq_of_take heq hab, termAt_eq_of_take heq (Nat.le_refl b)] at this
      rwa [termAt_of_pre hpre (by omega), termAt_of_pre hpre hs]
    · have hmem : f ∈ r.log.drop r.start.length := by
        apply List.mem_of_getElem? (i := b - 1 - r.start.length)
        rw [List.getElem?_drop, show r.start.length + (b - 1 - r.start.length) = b - 1 by omega]
        exact hget
      rw [hte, htf, hv.lead_own hr f hmem]
      exact hv.lead_term_le hr he

theorem sound_mono (hv : h.Valid P) {x : List E} (hx : h.Sound P x) {a b : Nat} (hab : a ≤ b)
    (hb : b ≤ x.length) : P.termAt x a ≤ P.termAt x b := by
  by_cases h0 : b = 0
  · rw [show a = b by omega]
  · obtain ⟨r, hr, hp⟩ := hx b (by omega) hb
    have heq := take_eq_of_takes hp hb
    have := hv.lead_mono _ hr hab (le_length_of_takes hp hb)
    rwa [termAt_eq_of_take heq hab, termAt_eq_of_take heq (Nat.le_refl b)] at this

theorem last_le (hv : h.Valid P) {x : List E} (hx : h.Sound P x) {i : Nat} (hi : i ≤ x.length) :
    P.termAt x i ≤ P.lastTerm x :=
  hv.sound_mono hx hi (Nat.le_refl _)

end Valid

/-- Log matching: the term at an index fixes the log up to that index. -/
theorem Sound.matching {x y : List E} (hx : h.Sound P x) (hy : h.Sound P y) {i : Nat}
    (hix : i ≤ x.length) (hiy : i ≤ y.length) (ht : P.termAt x i = P.termAt y i) :
    x.take i = y.take i := by
  by_cases h0 : i = 0
  · simp [h0]
  · obtain ⟨r, hr, hpx⟩ := hx i (by omega) hix
    obtain ⟨q, hq, hpy⟩ := hy i (by omega) hiy
    rw [ht, hq] at hr
    cases hr
    rw [← take_eq_of_takes hpx hix, ← take_eq_of_takes hpy hiy]

/-! ## Chosen prefixes -/

/-- A log at least as up to date as one that holds a chosen prefix holds it too. -/
theorem Valid.up_to_date_carries (hv : h.Valid P) {t u i : Nat} {r : Reign N E} {x v : List E}
    (hr : h.lead t = some r) (h0 : 0 < i) (hi : i ≤ r.log.length) (ht : P.termAt r.log i = t)
    (hx : h.Sound P x) (hsv : h.Sound P v) (hlt : ∀ e ∈ x, P.term e < u)
    (hlater : ∀ s q, h.lead s = some q → t < s → s < u → r.log.take i <+: q.start)
    (hup : P.UpToDate x v) (hp : r.log.take i <+: v) : r.log.take i <+: x := by
  have hiv : i ≤ v.length := le_length_of_takes hp hi
  have htv : P.termAt v i = t := by
    rw [termAt_eq_of_take (take_eq_of_takes hp hi) (Nat.le_refl i), ht]
  have hlast : t ≤ P.lastTerm v := by rw [← htv]; exact hv.last_le hsv hiv
  have htpos := hv.lead_pos hr
  have hxne : 0 < x.length := by
    rcases Nat.eq_zero_or_pos x.length with hz | hz
    · exfalso
      have : P.lastTerm x = 0 := by unfold lastTerm; rw [hz]; rfl
      rcases hup with hl | ⟨he, hl⟩ <;> omega
    · exact hz
  obtain ⟨q, hq, hpx⟩ := hx x.length hxne (Nat.le_refl _)
  rw [List.take_length] at hpx
  rcases hup with hl | ⟨he, hl⟩
  · -- a later last term: its leader started with the prefix
    have hsu : P.termAt x x.length < u := by
      obtain ⟨e, he, _, hte⟩ := termAt_mem (P := P) hxne (Nat.le_refl _)
      rw [hte]
      exact hlt e he
    have hst : t < P.termAt x x.length := Nat.lt_of_le_of_lt hlast hl
    have hpq := (hlater _ q hq hst hsu).trans (hv.lead_start hq)
    rcases Nat.le_total i x.length with hix | hix
    · exact prefix_of_le hpq hpx (by simp [hix])
    · exfalso
      have heq := take_eq_of_takes hpq hi
      have h1 : P.termAt q.log x.length = P.termAt x x.length :=
        termAt_of_pre hpx (Nat.le_refl _)
      have h2 : P.termAt q.log x.length = P.termAt r.log x.length := termAt_eq_of_take heq hix
      have h3 := hv.lead_mono t hr hix hi
      omega
  · -- the same last term: both logs are prefixes of one leader's log
    have hvne : 0 < v.length := by omega
    obtain ⟨q', hq', hpv⟩ := hsv v.length hvne (Nat.le_refl _)
    rw [List.take_length] at hpv
    have hsame : P.termAt v v.length = P.termAt x x.length := he
    rw [hsame, hq] at hq'
    cases hq'
    exact hp.trans (prefix_of_le hpv hpx hl)

/-- What a known commit index says in terms of choices already known to be held. -/
theorem Known.take_eq {t i k : Nat} {x y : List E} (hk : h.Known t i x k) (hkx : k ≤ x.length)
    (hall : ∀ t₀ i₀ r₀, h.chosen t₀ i₀ → h.lead t₀ = some r₀ → (t₀ < t ∨ t₀ = t ∧ i₀ < i) →
      r₀.log.take i₀ <+: y) : k ≤ y.length ∧ x.take k = y.take k := by
  rcases hk with rfl | ⟨t₀, i₀, r₀, hc, hr, hle, hp, hlt⟩
  · simp
  · have hxr := take_eq_of_takes hp hkx
    have hlen := le_length_of_takes hp hkx
    have hy := take_prefix_mono hle (hall t₀ i₀ r₀ hc hr hlt)
    exact ⟨le_length_of_takes hy hlen, by rw [take_eq_of_takes hy hlen, hxr]⟩

theorem Known.le {t i k a : Nat} {x : List E} (hk : h.Known t i x k) (ha : a ≤ k) :
    h.Known t i x a := by
  rcases hk with rfl | ⟨t₀, i₀, r₀, hc, hr, hle, hp, hlt⟩
  · exact Or.inl (by omega)
  · exact Or.inr ⟨t₀, i₀, r₀, hc, hr, by omega, take_prefix_mono ha hp, hlt⟩

theorem Known.later {t u i j k : Nat} {x : List E} (hk : h.Known t i x k)
    (hle : t < u ∨ t = u ∧ i ≤ j) : h.Known u j x k := by
  rcases hk with rfl | ⟨t₀, i₀, r₀, hc, hr, hle₀, hp, hlt⟩
  · exact Or.inl rfl
  · exact Or.inr ⟨t₀, i₀, r₀, hc, hr, hle₀, hp, by omega⟩

theorem Known.congr {t i k j : Nat} {x y : List E} (hk : h.Known t i x k) (hkj : k ≤ j)
    (he : x.take j = y.take j) : h.Known t i y k := by
  rcases hk with rfl | ⟨t₀, i₀, r₀, hc, hr, hle₀, hp, hlt⟩
  · exact Or.inl rfl
  · exact Or.inr ⟨t₀, i₀, r₀, hc, hr, hle₀, by rwa [← take_eq_mono hkj he], hlt⟩

/-- In front of a change of voters every earlier change was known to be committed
when it was proposed. -/
theorem Valid.conf_known (hv : h.Valid P) {x : List E} (hx : h.Sound P x) {a b : Nat}
    (hab : a < b) (hca : P.ConfAt x a) (hcb : P.ConfAt x b) :
    h.Known (P.termAt x b) b x a := by
  have hbx : b ≤ x.length := hcb.le_length
  -- the later change was proposed in the term of its entry
  obtain ⟨q, hq, hpq⟩ := hx b (by omega) hbx
  have heq := take_eq_of_takes hpq hbx
  have hst : q.start.length < b := by
    by_contra hle
    obtain ⟨g, hg, _, htg⟩ := termAt_mem (P := P) (x := q.start) (i := b) (by omega) (by omega)
    have h1 := hv.cand_older (hv.lead_cand hq) g hg
    have h2 := termAt_of_pre (P := P) (hv.lead_start hq) (show b ≤ q.start.length by omega)
    have h3 := termAt_eq_of_take (P := P) heq (Nat.le_refl b)
    omega
  have hkn := hv.lead_conf hq hab hst ((confAt_eq_of_take heq (Nat.le_of_lt hab)).mpr hca)
    ((confAt_eq_of_take heq (Nat.le_refl b)).mpr hcb)
  exact hkn.congr (Nat.le_of_lt hab) heq

theorem term_lt_of_mem {x : List E} {u b : Nat}
    (hlt : ∀ e ∈ x, P.term e < u) (hcb : P.ConfAt x b) : P.termAt x b < u := by
  obtain ⟨e, he, _, hte⟩ := termAt_mem (P := P) hcb.pos hcb.le_length
  rw [hte]
  exact hlt e he

/-- The induction step of leader completeness. The log `x` won the votes of `S`
in term `u`; the leaders of all terms below `w` are complete. -/
theorem Valid.complete_step (hv : h.Valid P) {u w k : Nat} {x : List E} {S : Set N} (huw : u ≤ w)
    (hx : h.Sound P x) (hlt : ∀ e ∈ x, P.term e < u)
    (hk : h.Known u 0 x k) (hS : P.Effective x k S)
    (hvote : ∀ n ∈ S, P.UpToDate x (h.voteLog n u) ∧ h.Sound P (h.voteLog n u))
    (hack : ∀ n ∈ S, ∀ t r i, h.lead t = some r → t < u → i ≤ h.ack n t →
      r.log.take i <+: h.voteLog n u ∨ h.Displaced t w (r.log.take i))
    (ih : ∀ s q, s < w → h.lead s = some q → h.Complete s q.start) : h.Complete u x := by
  intro t
  induction t using Nat.strong_induction_on with
  | _ t iht =>
  intro i
  induction i using Nat.strong_induction_on with
  | _ i ihi =>
  intro r hc hr htu
  obtain ⟨r', hr', h0, hi, hterm, k₀, hk₀, hk₀i, hQ⟩ := hv.chosen_spec hc
  rw [hr] at hr'
  cases hr'
  by_contra hno
  have hlen : (r.log.take i).length = i := by simp [hi]
  -- every choice before this one is held by `x`
  have hbefore : ∀ t₀ i₀ r₀, h.chosen t₀ i₀ → h.lead t₀ = some r₀ →
      (t₀ < t ∨ t₀ = t ∧ i₀ < i) → r₀.log.take i₀ <+: x := by
    intro t₀ i₀ r₀ hc₀ hr₀ hlt₀
    rcases hlt₀ with hlt₀ | ⟨rfl, hlt₀⟩
    · exact iht t₀ hlt₀ i₀ r₀ hc₀ hr₀ (by omega)
    · exact ihi i₀ hlt₀ r₀ hc₀ hr₀ htu
  obtain ⟨d, hdp, hdx, hde, hdmax⟩ := exists_common (r.log.take i) x
  -- what `x` knows to be committed cannot lie behind the common prefix
  have hshare : ∀ a t₂ i₂ r₂, h.chosen t₂ i₂ → h.lead t₂ = some r₂ → t₂ < u → a ≤ i₂ →
      a ≤ x.length → x.take a <+: r₂.log → a ≤ d := by
    intro a t₂ i₂ r₂ hc₂ hr₂ ht₂ hai hax hpa
    obtain ⟨r₂', hr₂', _, hi₂, _, _⟩ := hv.chosen_spec hc₂
    rw [hr₂] at hr₂'
    cases hr₂'
    have hxa := take_eq_of_takes hpa hax
    have hboth : r.log.take a = x.take a ∧ a ≤ i ∨ r.log.take i <+: x := by
      rcases Nat.lt_trichotomy t₂ t with hlt₂ | rfl | hgt₂
      · have hcomp := (ih t r (by omega) hr t₂ i₂ r₂ hc₂ hr₂ hlt₂).trans (hv.lead_start hr)
        have hra := take_eq_of_takes (take_prefix_mono hai hcomp) (by omega)
        rcases Nat.le_total a i with hle | hle
        · exact Or.inl ⟨by rw [hra, hxa], hle⟩
        · refine Or.inr (take_prefix_of_take_eq ?_)
          exact take_eq_mono hle (by rw [hra, hxa])
      · rw [hr] at hr₂
        cases hr₂
        rcases Nat.le_total a i with hle | hle
        · exact Or.inl ⟨hxa, hle⟩
        · exact Or.inr (take_prefix_of_take_eq (take_eq_mono hle hxa))
      · have hcomp := (ih t₂ r₂ (by omega) hr₂ t i r hc hr hgt₂).trans (hv.lead_start hr₂)
        have hra := take_eq_of_takes hcomp hi
        rcases Nat.le_total a i with hle | hle
        · exact Or.inl ⟨by rw [← take_eq_mono hle hra, hxa], hle⟩
        · refine Or.inr (take_prefix_of_take_eq ?_)
          rw [← hra]
          exact take_eq_mono hle hxa
    rcases hboth with ⟨he, hle⟩ | hpre
    · refine hdmax a (by omega) hax ?_
      rw [take_take_of_le hle, he]
    · exact absurd hpre hno
  -- behind the common prefix the chosen prefix has one unknown change of voters at most
  have htail₁ : P.OneTail (r.log.take i) d k₀ := by
    have key : ∀ a, P.ConfAt (r.log.take i) a → h.Known t i r.log a → a ≤ d := by
      intro a hca hkn
      have hai : a ≤ i := by have := hca.le_length; omega
      obtain ⟨hax, hae⟩ := hkn.take_eq (by omega) hbefore
      refine hdmax a (by omega) hax ?_
      rw [take_take_of_le hai, hae]
    refine oneTail_intro (fun a hca hak => key a hca (hk₀.le hak)) ?_
    intro a b hab hca hcb
    have hbi : b ≤ i := by have := hcb.le_length; omega
    have hkn := hv.conf_known ((hv.lead_sound hr).take i) hab hca hcb
    have hle : P.termAt (r.log.take i) b ≤ t := by
      rw [termAt_take hbi, ← hterm]
      exact hv.lead_mono t hr hbi hi
    exact key a hca ((hkn.congr (j := i) (by omega) (take_take_of_le (Nat.le_refl i))).later
      (by omega))
  -- and so has the log that won the election
  have htail₂ : P.OneTail x d k := by
    have key : ∀ a, P.ConfAt x a → h.Known u 0 x a → a ≤ d := by
      intro a hca hkn
      rcases hkn with h00 | ⟨t₀, i₀, r₀, hc₀, hr₀, hle₀, hp₀, hlt₀⟩
      · have := hca.pos; omega
      · exact hshare a t₀ i₀ r₀ hc₀ hr₀ (by omega) hle₀ hca.le_length hp₀
    exact oneTail_intro (fun a hca hak => key a hca (hk.le hak)) (fun a b hab hca hcb =>
      key a hca ((hv.conf_known hx hab hca hcb).later (Or.inl (term_lt_of_mem hlt hcb))))
  -- the two quorums meet in a node that acknowledged the prefix and then voted
  have hq₁ := hQ d hdp htail₁
  have hq₂ := hS d hdx htail₂
  rw [hde] at hq₁
  obtain ⟨n, hn₁, hn₂⟩ := P.quorum_inter hq₁ hq₂
  obtain ⟨hup, hsv⟩ := hvote n hn₂
  have hlater : ∀ s q, h.lead s = some q → t < s → s < u → r.log.take i <+: q.start :=
    fun s q hq hts hsu => ih s q (by omega) hq t i r hc hr hts
  rcases hack n hn₂ t r i hr htu hn₁ with hp | ⟨s, q, hts, hsw, hq, hdis⟩
  · exact hno (hv.up_to_date_carries hr h0 hi hterm hx hsv hlt hlater hup hp)
  · exact hdis (ih s q hsw hq t i r hc hr hts)

/-- Leader completeness: a leader starts with everything chosen in earlier terms. -/
theorem Valid.lead_complete (hv : h.Valid P) : ∀ (u : Nat) (q : Reign N E),
    h.lead u = some q → h.Complete u q.start := by
  intro u
  induction u using Nat.strong_induction_on with
  | _ u ih =>
    intro q hq
    have hcand := hv.lead_cand hq
    refine hv.complete_step (Nat.le_refl u) (hv.cand_sound hcand) (hv.cand_older hcand)
      (hv.cand_known hcand).2
      (hv.lead_quorum hq) ?_ ?_ (fun s p hs hp => ih s hs p hp)
    · intro n hn
      obtain ⟨x, k, hc, hup⟩ := hv.vote_cand (hv.lead_votes hq n hn)
      rw [hcand] at hc
      cases hc
      exact ⟨hup, hv.vote_sound (hv.lead_votes hq n hn)⟩
    · intro n hn t r i hr htu hi
      exact hv.ack_elector hq hn hr htu hi

/-- A candidate with a quorum of votes holds everything chosen in earlier terms,
whether or not its term already has a leader. -/
theorem Valid.elected_complete (hv : h.Valid P) {c : N} {u k : Nat} {x : List E}
    (hc : h.cand c u = some (x, k)) (hQ : P.Effective x k {n | h.vote n u = some c}) :
    h.Complete u x := by
  refine hv.complete_step (Nat.le_succ u) (hv.cand_sound hc) (hv.cand_older hc)
    (hv.cand_known hc).2 hQ ?_ ?_ (fun s p _ hp => hv.lead_complete s p hp)
  · intro n hn
    obtain ⟨y, j, hy, hup⟩ := hv.vote_cand hn
    rw [hc] at hy
    cases hy
    exact ⟨hup, hv.vote_sound hn⟩
  · intro n hn t r i hr htu hi
    exact hv.ack_vote hn hr htu hi

/-- A log complete for term `u` has every known change of voters of another
candidate's log in common with it. -/
theorem Valid.oneTail_of_complete (hv : h.Valid P) {c : N} {u k d : Nat} {x y : List E}
    (hc : h.cand c u = some (x, k)) (hy : h.Complete u y)
    (hd : ∀ a, a ≤ x.length → a ≤ y.length → x.take a = y.take a → a ≤ d) : P.OneTail x d k := by
  have hx := hv.cand_sound hc
  have key : ∀ a, P.ConfAt x a → h.Known u 0 x a → a ≤ d := by
    intro a hca hkn
    obtain ⟨hay, hae⟩ := hkn.take_eq (y := y) hca.le_length
      (fun t₀ i₀ r₀ hc₀ hr₀ hlt₀ => hy t₀ i₀ r₀ hc₀ hr₀ (by omega))
    exact hd a hca.le_length hay hae
  exact oneTail_intro (fun a hca hak => key a hca ((hv.cand_known hc).2.le hak))
    (fun a b hab hca hcb => key a hca ((hv.conf_known hx hab hca hcb).later
      (Or.inl (term_lt_of_mem (hv.cand_older hc) hcb))))

/-- Election safety: two candidates with a quorum of votes in one term are the
same node. -/
theorem Valid.elected_unique (hv : h.Valid P) {c c' : N} {u k k' : Nat} {x x' : List E}
    (hc : h.cand c u = some (x, k)) (hQ : P.Effective x k {n | h.vote n u = some c})
    (hc' : h.cand c' u = some (x', k')) (hQ' : P.Effective x' k' {n | h.vote n u = some c'}) :
    c = c' := by
  obtain ⟨d, hdx, hdx', hde, hdmax⟩ := exists_common x x'
  have h1 := hv.oneTail_of_complete hc (hv.elected_complete hc' hQ') hdmax
  have h2 := hv.oneTail_of_complete hc' (hv.elected_complete hc hQ)
    (fun a ha ha' he => hdmax a ha' ha he.symm)
  have hq₁ := hQ d hdx h1
  have hq₂ := hQ' d hdx' h2
  rw [← hde] at hq₂
  obtain ⟨n, hn₁, hn₂⟩ := P.quorum_inter hq₁ hq₂
  have hn₁' : h.vote n u = some c := hn₁
  have hn₂' : h.vote n u = some c' := hn₂
  rw [hn₁'] at hn₂'
  exact Option.some.inj hn₂'

/-- The leader of a term holds every choice of that term and of earlier ones. -/
theorem Valid.lead_holds (hv : h.Valid P) {t s i : Nat} {r q : Reign N E}
    (hr : h.lead t = some r) (hq : h.lead s = some q) (hc : h.chosen s i) (hst : s ≤ t) :
    q.log.take i <+: r.log := by
  rcases Nat.lt_or_ge s t with hlt | hge
  · exact (hv.lead_complete t r hr s i q hc hq hlt).trans (hv.lead_start hr)
  · have : s = t := by omega
    subst this
    rw [hr] at hq
    cases hq
    exact List.take_prefix _ _

/-- Two committed prefixes agree as far as both reach. -/
theorem Valid.known_agree (hv : h.Valid P) {t t' j j' k k' : Nat} {x y : List E}
    (hx : h.Known t j x k) (hy : h.Known t' j' y k') (hkx : k ≤ x.length) (hky : k' ≤ y.length)
    {i : Nat} (hi : i ≤ k) (hi' : i ≤ k') : x.take i = y.take i := by
  rcases hx with rfl | ⟨t₀, i₀, r₀, hc₀, hr₀, hle₀, hp₀, _⟩
  · rw [show i = 0 by omega]; simp
  rcases hy with rfl | ⟨t₁, i₁, r₁, hc₁, hr₁, hle₁, hp₁, _⟩
  · rw [show i = 0 by omega]; simp
  have hx0 := take_eq_of_takes hp₀ hkx
  have hy1 := take_eq_of_takes hp₁ hky
  have hl₀ := le_length_of_takes hp₀ hkx
  have hl₁ := le_length_of_takes hp₁ hky
  have hcommon : r₀.log.take i = r₁.log.take i := by
    rcases Nat.le_total t₀ t₁ with hle | hle
    · have hp := take_prefix_mono (show i ≤ i₀ by omega) (hv.lead_holds hr₁ hr₀ hc₀ hle)
      exact (take_eq_of_takes hp (by omega)).symm
    · have hp := take_prefix_mono (show i ≤ i₁ by omega) (hv.lead_holds hr₀ hr₁ hc₁ hle)
      exact take_eq_of_takes hp (by omega)
  rw [← take_eq_mono hi hx0, hcommon, take_eq_mono hi' hy1]

/-- A leader's log and a prefix committed by its own or an earlier term agree. -/
theorem Valid.lead_known (hv : h.Valid P) {t k : Nat} {r : Reign N E} {x : List E}
    (hr : h.lead t = some r) (hk : h.Known (t + 1) 0 x k) (hkx : k ≤ x.length) :
    x.take k <+: r.log := by
  rcases hk with rfl | ⟨t₀, i₀, r₀, hc₀, hr₀, hle₀, hp₀, hlt₀⟩
  · simp
  · have hx0 := take_eq_of_takes hp₀ hkx
    rw [← hx0]
    exact take_prefix_mono hle₀ (hv.lead_holds hr hr₀ hc₀ (by omega))

/-! ## Committed logs -/

theorem Known.committed {t k : Nat} {x : List E} (hk : h.Known (t + 1) 0 x k)
    (hkx : k ≤ x.length) : h.Committed t (x.take k) := by
  rcases hk with rfl | ⟨t₀, i₀, r₀, hc, hr, hle, hp, hlt⟩
  · exact Or.inl (by simp)
  · exact Or.inr ⟨t₀, i₀, r₀, hc, hr, by omega, by simp [hkx, hle], hp⟩

theorem Committed.known {t k : Nat} {x : List E} (hk : h.Committed t (x.take k))
    (hkx : k ≤ x.length) : h.Known (t + 1) 0 x k := by
  rcases hk with hnil | ⟨t₀, i₀, r₀, hc, hr, hle, hi, hp⟩
  · have hlen := congrArg List.length hnil
    simp only [List.length_take, List.length_nil] at hlen
    exact Or.inl (by omega)
  · simp only [List.length_take] at hi
    exact Or.inr ⟨t₀, i₀, r₀, hc, hr, by omega, hp, by omega⟩

theorem Committed.of_pre {t : Nat} {y z : List E} (hy : h.Committed t y) (hz : z <+: y) :
    h.Committed t z := by
  rcases hy with rfl | ⟨t₀, i₀, r₀, hc, hr, hle, hi, hp⟩
  · exact Or.inl (List.prefix_nil.mp hz)
  · exact Or.inr ⟨t₀, i₀, r₀, hc, hr, hle, Nat.le_trans hz.length_le hi, hz.trans hp⟩

theorem Committed.later {t u : Nat} {y : List E} (hy : h.Committed t y) (htu : t ≤ u) :
    h.Committed u y := by
  rcases hy with rfl | ⟨t₀, i₀, r₀, hc, hr, hle, hi, hp⟩
  · exact Or.inl rfl
  · exact Or.inr ⟨t₀, i₀, r₀, hc, hr, Nat.le_trans hle htu, hi, hp⟩

namespace Valid

theorem commit_committed (hv : h.Valid P) (n : N) :
    h.Committed (h.term n) ((h.log n).take (h.commit n)) :=
  (hv.commit_known n).committed (hv.commit_le n)

/-- Of two committed logs one is a prefix of the other. -/
theorem committed_agree (hv : h.Valid P) {t u : Nat} {y z : List E} (hy : h.Committed t y)
    (hz : h.Committed u z) : y <+: z ∨ z <+: y := by
  have hy' : h.Known (t + 1) 0 y y.length :=
    Committed.known (by rwa [List.take_length]) (Nat.le_refl _)
  have hz' : h.Known (u + 1) 0 z z.length :=
    Committed.known (by rwa [List.take_length]) (Nat.le_refl _)
  have key : ∀ {i}, i ≤ y.length → i ≤ z.length → y.take i = z.take i :=
    fun hi hi' => hv.known_agree hy' hz' (Nat.le_refl _) (Nat.le_refl _) hi hi'
  rcases Nat.le_total y.length z.length with hle | hle
  · exact Or.inl (by
      have := key (Nat.le_refl _) hle
      rw [List.take_length] at this
      rw [this]
      exact List.take_prefix _ _)
  · exact Or.inr (by
      have := key hle (Nat.le_refl _)
      rw [List.take_length] at this
      rw [← this]
      exact List.take_prefix _ _)

/-- Committed logs hold the same entry at an index that both have. -/
theorem committed_getElem (hv : h.Valid P) {t u i : Nat} {y z : List E} {e : E}
    (hy : h.Committed t y) (hz : h.Committed u z) (he : y[i]? = some e) (hi : i < z.length) :
    z[i]? = some e := by
  rcases hv.committed_agree hy hz with hp | hp
  · exact getElem?_of_pre hp he
  · have hz' := getElem?_of_pre hp (List.getElem?_eq_getElem hi)
    rw [he] at hz'
    rw [List.getElem?_eq_getElem hi, hz']

/-- A leader holds what was committed up to its term. -/
theorem committed_lead (hv : h.Valid P) {t : Nat} {r : Reign N E} {y : List E}
    (hr : h.lead t = some r) (hy : h.Committed t y) : y <+: r.log := by
  have hy' : h.Known (t + 1) 0 y y.length :=
    Committed.known (by rwa [List.take_length]) (Nat.le_refl _)
  have := hv.lead_known hr hy' (Nat.le_refl _)
  rwa [List.take_length] at this

theorem committed_sound (hv : h.Valid P) {t : Nat} {y : List E} (hy : h.Committed t y) :
    h.Sound P y := by
  rcases hy with rfl | ⟨t₀, i₀, r₀, _, hr, _, _, hp⟩
  · intro i h0 hi
    simp at hi
    omega
  · exact (hv.lead_sound hr).of_pre hp

theorem committed_term (hv : h.Valid P) {t : Nat} {y : List E} (hy : h.Committed t y) {e : E}
    (he : e ∈ y) : P.term e ≤ t := by
  rcases hy with rfl | ⟨t₀, i₀, r₀, _, hr, hle, _, hp⟩
  · cases he
  · exact Nat.le_trans (hv.lead_term_le hr (hp.subset he)) hle

end Valid

end History

end QuorumLog
