import CarolinaDB.RaftSafety
import CarolinaDB.RaftTurns

/-!
# Linearizable read barriers

A barrier that becomes ready was acknowledged by a quorum that had not voted in
a later term when it began, and the leader had by then committed an entry of its
own term. Whatever any voter knew to be committed before is therefore in the
prefix the barrier names.
-/
namespace CarolinaDB.Consensus

open ElectionHistory

variable {Id : Type} [LinearOrder Id] {cfg : Config Id} {h h' h₁ : Rows Id} {w w' : World Id}

/-- Messages drained so far, or waiting in the outbox of a running voter. -/
def World.Wire (w : World Id) (env : Envelope Id) : Prop :=
  env ∈ w.sent ∨ ∃ i r, w.peer i = .up r ∧ env ∈ r.outbox

/-- Term and read round of entries and of successful replies. -/
def Message.stamp : Message → Option (ℕ × ℕ)
  | .appendEntries t _ _ _ _ rr => some (t, rr)
  | .appendEntriesReply t true _ rr _ => some (t, rr)
  | _ => none

def Face.fresh (t : ℕ) : Face Id := ⟨t, .follower, 0, 0, [], []⟩

namespace World

/-- What an action does to the voter it is about. -/
inductive Shift (w w' : World Id) (a : Action Id) (i : Id) : Prop
  | call {r r' : Raft Id} {c : Call Id} (ha : a = .call i c) (hr : w.peer i = .up r)
      (hr' : w'.peer i = .up r') (hc : c.Deliverable w.sent) (o : Raft.Outcome c r.enter r')
      (hwire : ∀ env, w'.Wire env → w.Wire env ∨ Raft.Spoken c r' env)
  | stop {p : Persistent Id} (ha : a = .crash i ∨ ∃ c n, a = .kill i c n) (hr' : w'.peer i = .down p)
      (hwire : ∀ env, w'.Wire env → w.Wire env)
  | drain {r r' : Raft Id} (hr : w.peer i = .up r) (hr' : w'.peer i = .up r')
      (hf : r'.face = r.face) (hwire : ∀ env, w'.Wire env → w.Wire env)
  | start {r : Raft Id} {t : ℕ} {p : Persistent Id} (hr : w.peer i = .down p)
      (hr' : w'.peer i = .up r) (hf : r.face = Face.fresh t)
      (hwire : ∀ env, w'.Wire env → w.Wire env)

/-- A change at one voter adds to the wire only what that voter's outbox gains. -/
lemma wire_setPeer {i : Id} {p : Peer Id} {env : Envelope Id} (hw : w'.Wire env)
    (hs : w'.sent = w.sent) (hp : w'.peer = Function.update w.peer i p) :
    w.Wire env ∨ ∃ r, p = .up r ∧ env ∈ r.outbox := by
  rcases hw with he | ⟨j, r, hj, he⟩
  · exact Or.inl (Or.inl (hs ▸ he))
  · rw [hp] at hj
    by_cases hji : j = i
    · subst hji
      rw [Function.update_self] at hj
      exact Or.inr ⟨r, hj, he⟩
    · rw [Function.update_of_ne hji] at hj
      exact Or.inl (Or.inr ⟨j, r, hj, he⟩)

theorem act_shift {a : Action Id} (h : w.act cfg a = some w') :
    ∃ i, (∀ j, j ≠ i → w'.peer j = w.peer j) ∧ Shift w w' a i := by
  cases a with
  | call i c =>
    simp only [act] at h
    split at h <;> try contradiction
    rename_i r hr
    split at h <;> try contradiction
    rename_i hc
    split at h <;> try contradiction
    rename_i r' evs hrun
    cases h
    have o := Raft.run_outcome hrun
    refine ⟨i, fun j hj => by simp [setPeer, record, hj],
      .call rfl hr (by simp [setPeer, record]) hc o fun env he => ?_⟩
    rcases wire_setPeer (w := w) he rfl rfl with he | ⟨q, hq, he⟩
    · exact Or.inl he
    · cases hq
      obtain ⟨out, hout, hsp⟩ := o.speaks
      rw [hout, List.mem_append] at he
      rcases he with he | he
      · exact Or.inl (Or.inr ⟨i, r, hr, he⟩)
      · exact Or.inr (hsp env he)
  | kill i c n =>
    simp only [act] at h
    split at h <;> try contradiction
    split at h <;> try contradiction
    split at h <;> try contradiction
    rw [Option.map_eq_some_iff] at h
    obtain ⟨p, -, rfl⟩ := h
    refine ⟨i, fun j hj => by simp [setPeer, hj],
      .stop (p := p) (Or.inr ⟨c, n, rfl⟩) (by simp [setPeer]) fun env he => ?_⟩
    exact (wire_setPeer (w := w) he rfl rfl).resolve_right (by simp)
  | crash i =>
    simp only [act] at h
    split at h <;> try contradiction
    rename_i r hr
    cases h
    refine ⟨i, fun j hj => by simp [setPeer, hj],
      .stop (p := r.storage.state) (Or.inl rfl) (by simp [setPeer]) fun env he => ?_⟩
    exact (wire_setPeer (w := w) he rfl rfl).resolve_right (by simp)
  | drain i =>
    simp only [act] at h
    split at h <;> try contradiction
    rename_i r hr
    cases h
    refine ⟨i, fun j hj => by simp [setPeer, hj],
      .drain hr (show _ = Peer.up r.takeOutbox.2 by simp [setPeer]) rfl fun env he => ?_⟩
    rcases he with he | ⟨j, q, hj, he⟩
    · rcases List.mem_append.mp he with he | he
      · exact Or.inl he
      · exact Or.inr ⟨i, r, hr, he⟩
    · by_cases hji : j = i
      · subst hji
        simp only [setPeer, Function.update_self, Peer.up.injEq] at hj
        subst hj
        simp [Raft.takeOutbox] at he
      · simp only [setPeer, Function.update_of_ne hji] at hj
        exact Or.inr ⟨j, q, hj, he⟩
  | restart i rng =>
    simp only [act] at h
    split at h <;> try contradiction
    rename_i p hp
    split at h <;> try contradiction
    rename_i r hnew
    cases h
    obtain ⟨hf, ho⟩ : r.face = Face.fresh p.term ∧ r.outbox = [] := by
      unfold Raft.new at hnew
      split at hnew
      · cases hnew
        exact ⟨rfl, rfl⟩
      · cases hnew
    refine ⟨i, fun j hj => by simp [setPeer, hj], .start hp (by simp [setPeer]) hf
      fun env he => ?_⟩
    rcases wire_setPeer (w := w) he rfl rfl with he | ⟨q, hq, he⟩
    · exact he
    · cases hq
      rw [ho] at he
      simp at he

end World

/-- Index `k` is part of a chosen prefix that the leader of its term, while it runs, has committed. -/
def Known (cfg : Config Id) (h : Rows Id) (w : World Id) (k : ℕ) : Prop :=
  k = 0 ∨ ∃ s n, k ≤ n ∧ Chosen cfg.voters h s n ∧
    ∀ i r, w.peer i = .up r → r.role = .leader → r.term = s → n ≤ r.commitIndex

lemma Known.le {j k : ℕ} (hk : Known cfg h w k) (hjk : j ≤ k) : Known cfg h w j := by
  rcases hk with rfl | ⟨s, n, hkn, hc⟩
  · exact Or.inl (Nat.le_zero.mp hjk)
  · exact Or.inr ⟨s, n, hjk.trans hkn, hc⟩

/-- Read rounds on the wire, in the barriers and in the results never run ahead of the leader. -/
structure ReadsOk (cfg : Config Id) (h : Rows Id) (w : World Id) : Prop where
  world : WorldOk cfg h w
  node : ∀ i r, w.peer i = .up r → Known cfg h w r.commitIndex
  message : ∀ env, w.Wire env → ∀ t pi pt es lc rr, env.msg = .appendEntries t pi pt es lc rr →
    Known cfg h w lc
  led : ∀ env, w.Wire env → ∀ t rr, env.msg.stamp = some (t, rr) → ∃ c, h.led t = some c
  round : ∀ i r, w.peer i = .up r → r.role = .leader → ∀ env, w.Wire env → ∀ rr,
    env.msg.stamp = some (r.term, rr) → rr ≤ r.readRound
  pending : ∀ i r, w.peer i = .up r → ∀ p ∈ r.pendingReads, r.role = .leader ∧ p.1 ≤ r.readRound
  ready : ∀ i r, w.peer i = .up r → ∀ d ∈ r.readyReads, d.round ≤ r.readRound

lemma WorldOk.nodeOk (ok : WorldOk cfg h w) {i : Id} {r : Raft Id} (hr : w.peer i = .up r) :
    ∃ full, NodeOk cfg h i full r.core := by
  have u : PeerOk cfg h i (w.life i) (.up r) := hr ▸ ok.peer i
  exact u.node

lemma WorldOk.leaderOk (ok : WorldOk cfg h w) {i : Id} {r : Raft Id} (hr : w.peer i = .up r)
    (hl : r.role = .leader) : h.led r.term = some i := by
  obtain ⟨full, hn⟩ := ok.nodeOk hr
  exact (hn.leader hl).led

section Reads
variable {r : Raft Id} {v : Id} {rr : ℕ}

/-- A barrier still waiting after an acknowledgement waited before it, and counts at most the
voter that just answered a round from its own on. -/
lemma Raft.mem_ackReads_pending {p : ℕ × ℕ × Finset Id} (hp : p ∈ (r.ackReads v rr).pendingReads) :
    ∃ q ∈ r.pendingReads, p.1 = q.1 ∧ p.2.1 = q.2.1 ∧
      (p.2.2 = q.2.2 ∨ (q.1 ≤ rr ∧ p.2.2 = insert v q.2.2)) := by
  simp only [Raft.ackReads, List.mem_filter, List.mem_map] at hp
  obtain ⟨⟨q, hq, rfl⟩, -⟩ := hp
  refine ⟨q, hq, ?_⟩
  split
  · rename_i hle
    exact ⟨rfl, rfl, Or.inr ⟨hle, rfl⟩⟩
  · exact ⟨rfl, rfl, Or.inl rfl⟩

/-- A barrier becomes ready with a quorum. -/
lemma Raft.mem_ackReads_ready {d : ReadIndex} (hd : d ∈ (r.ackReads v rr).readyReads) :
    d ∈ r.readyReads ∨ ∃ q ∈ r.pendingReads, q.1 ≤ rr ∧ d.round = q.1 ∧ d.index = q.2.1 ∧
      r.cfg.quorum ≤ (insert v q.2.2).card := by
  simp only [Raft.ackReads, List.mem_append, List.mem_filterMap, List.mem_map] at hd
  rcases hd with hd | ⟨p, ⟨q, hq, hpq⟩, hsome⟩
  · exact Or.inl hd
  · right
    split at hsome
    · rename_i hcond
      obtain ⟨hle, hcard⟩ := hcond
      simp only [Option.some.injEq] at hsome
      subst hsome
      have hq1 : q.1 ≤ rr := by
        by_contra hlt
        rw [if_neg hlt] at hpq
        rw [← hpq] at hle
        exact hlt hle
      rw [if_pos hq1] at hpq
      subst hpq
      exact ⟨q, hq, hq1, rfl, rfl, hcard⟩
    · cases hsome

end Reads

section Step
variable {a : Action Id} {i₀ : Id}

/-- A leader whose term had a leader before the action was that leader. -/
lemma leader_before (ok : WorldOk cfg h w) (ok' : WorldOk cfg h' w') (g : Grows i₀ h h')
    (ha : w.act cfg a = some w') {i : Id} {r' : Raft Id} (hr' : w'.peer i = .up r')
    (hl : r'.role = .leader) {c : Id} (hc : h.led r'.term = some c) :
    ∃ r, w.peer i = .up r ∧ r.role = .leader ∧ r.term = r'.term ∧
      r.commitIndex ≤ r'.commitIndex ∧ r.readRound ≤ r'.readRound := by
  obtain ⟨j, hother, hshift⟩ := World.act_shift ha
  by_cases hij : i = j
  swap
  · rw [hother i hij] at hr'
    exact ⟨r', hr', hl, rfl, le_rfl, le_rfl⟩
  subst hij
  have hled : h.led r'.term = some i := by
    have := g.led _ _ hc
    rw [ok'.leaderOk hr' hl] at this
    rw [hc, this]
  cases hshift with
  | @call r q c _ hr hq _ o _ =>
    rw [hr', Peer.up.injEq] at hq
    subst hq
    obtain ⟨full, hn⟩ := ok.nodeOk hr
    refine ⟨r, hr, ?_⟩
    cases o.turn with
    | same hf =>
      obtain ⟨ht, hrole, hcm, hrd⟩ := Raft.face_ext hf
      exact ⟨hrole.symm.trans hl, ht.symm, hcm.ge, hrd.ge⟩
    | retire _ hf => simp [(Raft.face_ext hf).2.1] at hl
    | stand _ hf => simp [(Raft.face_ext hf).2.1] at hl
    | follow _ _ _ hf => simp [(Raft.face_ext hf).2.1] at hl
    | lead _ ht hf =>
      -- a newly elected leader had not led its term
      obtain ⟨hterm, -⟩ := Raft.face_ext hf
      rw [hterm] at hled
      rcases ht with ⟨hcand, rfl⟩ | rfl
      · exact absurd hled (hn.candidate hcand).not_led
      · have := hn.live.voter.led_past _ hled
        simp [Raft.core, Raft.live, Raft.enter] at this
    | barrier hlead _ hf =>
      obtain ⟨ht, -, hcm, hrd⟩ := Raft.face_ext hf
      exact ⟨hlead, ht.symm, hcm.ge, (Nat.le_succ _).trans hrd.ge⟩
    | ack hlead _ hk hf =>
      obtain ⟨ht, -, hcm, hrd⟩ := Raft.face_ext hf
      refine ⟨hlead, ht.symm, ?_, hrd.ge⟩
      rw [hcm]
      rcases hk with rfl | hk
      · exact le_rfl
      · exact hk.1.le
    | taken hf =>
      obtain ⟨ht, hrole, hcm, hrd⟩ := Raft.face_ext hf
      exact ⟨hrole.symm.trans hl, ht.symm, hcm.ge, hrd.ge⟩
  | stop _ hq _ =>
    rw [hr'] at hq
    cases hq
  | drain hr hq hf _ =>
    rw [hr', Peer.up.injEq] at hq
    subst hq
    obtain ⟨ht, hrole, hcm, hrd⟩ := Raft.face_ext hf
    exact ⟨_, hr, hrole.symm.trans hl, ht.symm, hcm.ge, hrd.ge⟩
  | start _ hq hf _ =>
    rw [hr', Peer.up.injEq] at hq
    subst hq
    simp [(Raft.face_ext hf).2.1, Face.fresh] at hl

/-- What is known stays known. -/
theorem Known.act (ok : WorldOk cfg h w) (ok' : WorldOk cfg h' w') (g : Grows i₀ h h')
    (ha : w.act cfg a = some w') {k : ℕ} (hk : Known cfg h w k) : Known cfg h' w' k := by
  rcases hk with rfl | ⟨s, n, hkn, hc, hlead⟩
  · exact Or.inl rfl
  refine Or.inr ⟨s, n, hkn, g.chosen hc, fun i r' hr' hl ht => ?_⟩
  obtain ⟨c, hled⟩ := hc.led ok.ledger.toSound
  subst ht
  obtain ⟨r, hr, hrl, hrt, hcm, -⟩ := leader_before ok ok' g ha hr' hl hled
  exact (hlead i r hr hrl hrt).trans hcm

/-- An index of its own term that a leader commits is chosen, and the leader knows it. -/
lemma Known.of_leader (ok : WorldOk cfg h w) {i : Id} {r : Raft Id} (hr : w.peer i = .up r)
    (hl : r.role = .leader) (hpos : 0 < r.commitIndex) (ht : r.termAt r.commitIndex = r.term) :
    Known cfg h w r.commitIndex := by
  obtain ⟨full, hn⟩ := ok.nodeOk hr
  have lok := hn.leader hl
  have hlog : h.leaderLog r.term = full := lok.log
  obtain ⟨k, hk⟩ : ∃ k, r.commitIndex = k+1 := ⟨r.commitIndex - 1, by omega⟩
  have hcom : Committed cfg.voters h r.term full r.commitIndex := hn.commit
  obtain ⟨e, he, het⟩ : ∃ e, full[k]? = some e ∧ e.term = r.term := by
    have v : r.Views full := hn.live.view
    have htp : 0 < r.term := lok.term_pos
    rw [v.termAt] at ht
    split at ht
    · omega
    · rw [hk, termOf_succ] at ht
      cases he : full[k]? with
      | none =>
        rw [he] at ht
        simp at ht
        omega
      | some e => exact ⟨e, rfl, by simpa [he] using ht⟩
  have hown : OwnAt h r.term r.commitIndex := ⟨k, e, hk, by rw [hlog]; exact he, het⟩
  rcases hcom with h0 | ⟨s, n, hst, hkn, hc, htake⟩
  · omega
  -- an entry of this term is in no log of an earlier one
  have hs : s = r.term := by
    have hes : (h.leaderLog s)[k]? = some e := by
      rw [← getElem?_eq_of_take_eq htake (by omega)]
      exact he
    have := ok.ledger.toSound.term_le s e (List.mem_of_getElem? hes)
    change e.term ≤ s at this
    omega
  subst hs
  obtain ⟨-, Q, hQ, hacks⟩ := hc
  refine Or.inr ⟨r.term, r.commitIndex, le_rfl, ⟨hown, Q, hQ, fun v hv => hkn.trans (hacks v hv)⟩, ?_⟩
  intro j q hq hql hqt
  have h₁ := ok.leaderOk hq hql
  rw [hqt, ok.leaderOk hr hl, Option.some.injEq] at h₁
  subst h₁
  rw [hr, Peer.up.injEq] at hq
  rw [hq]

namespace ReadsOk

lemma init : ReadsOk cfg History.empty World.init where
  world := WorldOk.init
  node i r hr := by cases hr
  message env he := by rcases he with he | ⟨i, r, hr, _⟩ <;> [simp [World.init] at he; cases hr]
  led env he := by rcases he with he | ⟨i, r, hr, _⟩ <;> [simp [World.init] at he; cases hr]
  round i r hr := by cases hr
  pending i r hr := by cases hr
  ready i r hr := by cases hr

/-- The commit index of the voter an action is about is known after the action. -/
lemma act_node (ok : ReadsOk cfg h w) (ok' : WorldOk cfg h' w') (g : Grows i₀ h h')
    (ha : w.act cfg a = some w') (i : Id) (r' : Raft Id) (hr' : w'.peer i = .up r') :
    Known cfg h' w' r'.commitIndex := by
  have stays : ∀ {k}, Known cfg h w k → Known cfg h' w' k := Known.act ok.world ok' g ha
  obtain ⟨j, hother, hshift⟩ := World.act_shift ha
  by_cases hij : i = j
  swap
  · rw [hother i hij] at hr'
    exact stays (ok.node i r' hr')
  subst hij
  cases hshift with
  | @call r q c _ hr hq hc o _ =>
    rw [hr', Peer.up.injEq] at hq
    subst hq
    have hold := stays (ok.node i r hr)
    cases o.turn with
    | same hf | retire _ hf | stand _ hf | lead _ _ hf | barrier _ _ hf | taken hf =>
      rw [(Raft.face_ext hf).2.2.1]
      exact hold
    | follow _ _ hk hf =>
      rw [(Raft.face_ext hf).2.2.1]
      rcases hk with rfl | ⟨-, hk⟩
      · exact hold
      · exact (stays (ok.message _ (Or.inl hc) _ _ _ _ _ _ rfl)).le hk
    | ack hl _ hk hf =>
      obtain ⟨ht, hrole, hcm, -⟩ := Raft.face_ext hf
      rcases hk with rfl | ⟨hlt, hk⟩
      · rw [hcm]
        exact hold
      · refine Known.of_leader ok' hr' (hrole.trans hl) ?_ ?_
        · exact hcm.symm ▸ Nat.zero_lt_of_lt hlt
        · rw [hcm, ht]
          exact hk
  | stop _ hq _ =>
    rw [hr'] at hq
    cases hq
  | drain hr hq hf _ =>
    rw [hr', Peer.up.injEq] at hq
    subst hq
    rw [(Raft.face_ext hf).2.2.1]
    exact stays (ok.node i _ hr)
  | start _ hq hf _ =>
    rw [hr', Peer.up.injEq] at hq
    subst hq
    exact Or.inl (Raft.face_ext hf).2.2.1

/-- Barriers and results of the voter an action is about stay within its rounds. -/
lemma act_rounds (ok : ReadsOk cfg h w) (ha : w.act cfg a = some w') (i : Id) (r' : Raft Id)
    (hr' : w'.peer i = .up r') :
    (∀ p ∈ r'.pendingReads, r'.role = .leader ∧ p.1 ≤ r'.readRound) ∧
      ∀ d ∈ r'.readyReads, d.round ≤ r'.readRound := by
  obtain ⟨j, hother, hshift⟩ := World.act_shift ha
  by_cases hij : i = j
  swap
  · rw [hother i hij] at hr'
    exact ⟨ok.pending i r' hr', ok.ready i r' hr'⟩
  subst hij
  -- both lists and the bound are read off the face
  have hkeep : ∀ {f : Face Id}, r'.face = f →
      (∀ p ∈ f.pendingReads, f.role = .leader ∧ p.1 ≤ f.readRound) →
      (∀ d ∈ f.readyReads, d.round ≤ f.readRound) →
      (∀ p ∈ r'.pendingReads, r'.role = .leader ∧ p.1 ≤ r'.readRound) ∧
        ∀ d ∈ r'.readyReads, d.round ≤ r'.readRound := by
    rintro f rfl hp hd
    exact ⟨hp, hd⟩
  cases hshift with
  | @call r q c _ hr hq hc o _ =>
    rw [hr', Peer.up.injEq] at hq
    subst hq
    have hpend := ok.pending i r hr
    have hready := ok.ready i r hr
    have hnone : r.role ≠ .leader → r.pendingReads = [] := by
      intro hne
      rw [List.eq_nil_iff_forall_not_mem]
      exact fun p hp => hne (hpend p hp).1
    cases o.turn with
    | same hf => exact hkeep hf hpend hready
    | retire _ hf => exact hkeep hf (by simp) hready
    | stand hne hf | lead hne _ hf =>
      refine hkeep hf ?_ hready
      change ∀ p ∈ r.pendingReads, _
      rw [hnone hne]
      simp
    | barrier hl _ hf =>
      refine hkeep hf ?_ fun d hd => (hready d hd).trans (Nat.le_succ _)
      intro p hp
      rcases List.mem_append.mp hp with hp | hp
      · exact ⟨hl, (hpend p hp).2.trans (Nat.le_succ _)⟩
      · rw [List.mem_singleton] at hp
        subst hp
        exact ⟨hl, le_rfl⟩
    | follow _ hp _ hf =>
      refine hkeep hf ?_ hready
      rcases hp with rfl | ⟨hfol, rfl⟩
      · simp
      · change ∀ p ∈ r.pendingReads, _
        rw [hnone (by rw [show r.role = .follower from hfol]; simp)]
        simp
    | ack hl _ _ hf =>
      refine hkeep hf ?_ ?_
      · intro p hp
        simp only at hp
        split at hp
        · obtain ⟨q, hq, he, -⟩ := Raft.mem_ackReads_pending hp
          rw [he]
          exact ⟨hl, (hpend q hq).2⟩
        · exact ⟨hl, (hpend p hp).2⟩
      · intro d hd
        simp only at hd
        split at hd
        · rcases Raft.mem_ackReads_ready hd with hd | ⟨q, hq, -, he, -⟩
          · exact hready d hd
          · rw [he]
            exact (hpend q hq).2
        · exact hready d hd
    | taken hf => exact hkeep hf hpend (by simp)
  | stop _ hq _ =>
    rw [hr'] at hq
    cases hq
  | drain hr hq hf _ =>
    rw [hr', Peer.up.injEq] at hq
    subst hq
    exact hkeep hf (ok.pending i _ hr) (ok.ready i _ hr)
  | start _ hq hf _ =>
    rw [hr', Peer.up.injEq] at hq
    subst hq
    exact hkeep hf (by simp [Face.fresh]) (by simp [Face.fresh])

/-- A stamped message is old, or repeats the stamp of a message just delivered, or comes from a
leader in its term. -/
lemma act_stamp (ha : w.act cfg a = some w') {env : Envelope Id} (he : w'.Wire env) {t rr : ℕ}
    (hst : env.msg.stamp = some (t, rr)) :
    (∃ env₀, w.Wire env₀ ∧ env₀.msg.stamp = some (t, rr)) ∨
      ∃ i r', w'.peer i = .up r' ∧ r'.role = .leader ∧ r'.term = t ∧ rr ≤ r'.readRound := by
  obtain ⟨j, -, hshift⟩ := World.act_shift ha
  cases hshift with
  | @call r r' c _ hr hr' hc o hwire =>
    rcases hwire env he with he | ⟨-, hsp⟩
    · exact Or.inl ⟨env, he, hst⟩
    obtain ⟨f, to_, msg⟩ := env
    cases msg with
    | requestVote | requestVoteReply => simp [Message.stamp] at hst
    | appendEntries u pi pt es lc rr' =>
      simp only [Message.stamp, Option.some.injEq, Prod.mk.injEq] at hst
      obtain ⟨rfl, rfl⟩ := hst
      obtain ⟨hl, ht, -, hle⟩ := hsp
      exact Or.inr ⟨j, r', hr', hl, ht.symm, hle⟩
    | appendEntriesReply u success m rr' ap =>
      cases success with
      | false => simp [Message.stamp] at hst
      | true =>
        simp only [Message.stamp, Option.some.injEq, Prod.mk.injEq] at hst
        obtain ⟨rfl, rfl⟩ := hst
        obtain ⟨-, src, dst, pi, pt, es, lc, rfl⟩ := hsp rfl
        exact Or.inl ⟨_, Or.inl hc, rfl⟩
  | stop _ _ hwire => exact Or.inl ⟨env, hwire env he, hst⟩
  | drain _ _ _ hwire => exact Or.inl ⟨env, hwire env he, hst⟩
  | start _ _ _ hwire => exact Or.inl ⟨env, hwire env he, hst⟩

theorem act (ok : ReadsOk cfg h w) (ok' : WorldOk cfg h' w') (g : Grows i₀ h h')
    (ha : w.act cfg a = some w') : ReadsOk cfg h' w' where
  world := ok'
  node := ok.act_node ok' g ha
  message env he t pi pt es lc rr hmsg := by
    have stays : ∀ {k}, Known cfg h w k → Known cfg h' w' k := Known.act ok.world ok' g ha
    obtain ⟨j, -, hshift⟩ := World.act_shift ha
    cases hshift with
    | @call r r' c _ hr hr' hc o hwire =>
      rcases hwire env he with he | ⟨-, hsp⟩
      · exact stays (ok.message env he _ _ _ _ _ _ hmsg)
      · rw [hmsg] at hsp
        rw [hsp.2.2.1]
        exact ok.act_node ok' g ha j r' hr'
    | stop _ _ hwire => exact stays (ok.message env (hwire env he) _ _ _ _ _ _ hmsg)
    | drain _ _ _ hwire => exact stays (ok.message env (hwire env he) _ _ _ _ _ _ hmsg)
    | start _ _ _ hwire => exact stays (ok.message env (hwire env he) _ _ _ _ _ _ hmsg)
  led env he t rr hst := by
    rcases act_stamp ha he hst with ⟨env₀, h₀, hst₀⟩ | ⟨i, r', hr', hl, rfl, -⟩
    · obtain ⟨c, hc⟩ := ok.led env₀ h₀ t rr hst₀
      exact ⟨c, g.led t c hc⟩
    · exact ⟨i, ok'.leaderOk hr' hl⟩
  round i r' hr' hl env he rr hst := by
    rcases act_stamp ha he hst with ⟨env₀, h₀, hst₀⟩ | ⟨j, q, hq, hql, hqt, hle⟩
    · obtain ⟨c, hc⟩ := ok.led env₀ h₀ _ rr hst₀
      obtain ⟨r, hr, hrl, hrt, -, hrd⟩ := leader_before ok.world ok' g ha hr' hl hc
      rw [← hrt] at hst₀
      exact (ok.round i r hr hrl env₀ h₀ rr hst₀).trans hrd
    · have h₁ := ok'.leaderOk hq hql
      rw [hqt, ok'.leaderOk hr' hl, Option.some.injEq] at h₁
      subst h₁
      rw [hr', Peer.up.injEq] at hq
      rw [hq]
      exact hle
  pending i r' hr' := (ok.act_rounds ha i r' hr').1
  ready i r' hr' := (ok.act_rounds ha i r' hr').2

end ReadsOk

end Step

theorem Reachable.readsOk (hw : Reachable cfg w) : ∃ h, ReadsOk cfg h w := by
  induction hw with
  | init => exact ⟨_, ReadsOk.init⟩
  | act _ a ha ih =>
    obtain ⟨h, ok⟩ := ih
    obtain ⟨i, h', g, ok'⟩ := ok.world.act_grows ha
    exact ⟨h', ok.act ok' g ha⟩

/-- What is known stays known over a run. -/
theorem ReadsOk.runAll (ok : ReadsOk cfg h w) {as : List (Action Id)}
    (hrun : w.runAll cfg as = some w') :
    ∃ h', ReadsOk cfg h' w' ∧ ∀ k, Known cfg h w k → Known cfg h' w' k := by
  induction as generalizing w h with
  | nil =>
    cases hrun
    exact ⟨h, ok, fun _ hk => hk⟩
  | cons a as ih =>
    rw [World.runAll, List.foldlM_cons] at hrun
    obtain ⟨w₁, ha, hrest⟩ := Option.bind_eq_some_iff.mp hrun
    obtain ⟨i, h₁, g, ok₁⟩ := ok.world.act_grows ha
    obtain ⟨h', ok', hstays⟩ := ih (ok.act ok₁ g ha) hrest
    exact ⟨h', ok', fun k hk => hstays k (Known.act ok.world ok₁ g ha hk)⟩

/-- A voter that has voted in no term above `t`. -/
def Calm (h : Rows Id) (t : ℕ) (v : Id) : Prop := ∀ u, t < u → h.voted v u = none

/-- A barrier of round `n` that voter `i` began in term `t` with commit index `index`, when the
history was `h₁`: everyone counted for it was calm then. -/
structure Pledged (cfg : Config Id) (h₁ : Rows Id) (i : Id) (t index n : ℕ) (h : Rows Id)
    (w : World Id) : Prop where
  votes : ∀ v u c, h₁.voted v u = some c → h.voted v u = some c
  replies : ∀ env, w.Wire env → ∀ m rr ap, env.msg = .appendEntriesReply t true m rr ap →
    n ≤ rr → Calm h₁ t env.from_
  round : ∀ r, w.peer i = .up r → n ≤ r.readRound
  pending : ∀ r, w.peer i = .up r → ∀ p ∈ r.pendingReads, p.1 = n →
    r.term = t ∧ p.2.1 = index ∧ ∀ v ∈ p.2.2, v ∈ cfg.members ∧ Calm h₁ t v
  ready : ∀ r, w.peer i = .up r → ∀ d ∈ r.readyReads, d.round = n →
    d.index = index ∧ ∃ Q, Quorum cfg.voters Q ∧ ∀ v ∈ Q, Calm h₁ t v

/-- Actions that end the process of voter `i`. -/
def Action.Ends (i : Id) : Action Id → Prop
  | .kill j _ _ => j = i
  | .crash j => j = i
  | _ => False

section Barrier
variable {i : Id} {t index n : ℕ} {a : Action Id}

lemma calm_of_node (ok : WorldOk cfg h w) (hv : ∀ v u c, h₁.voted v u = some c → h.voted v u = some c)
    {j : Id} {r : Raft Id} (hr : w.peer j = .up r) : Calm h₁ r.term j := by
  obtain ⟨full, hn⟩ := ok.nodeOk hr
  intro u hu
  have hnone : h.voted j u = none := hn.live.voter.voted_future u hu
  cases hvu : h₁.voted j u with
  | none => rfl
  | some c =>
    rw [hv j u c hvu] at hnone
    cases hnone

namespace Pledged

/-- A voter that answers entries of term `t` is in term `t` itself. -/
lemma act_replies (pl : Pledged cfg h₁ i t index n h w) (ok' : WorldOk cfg h' w')
    (hv : ∀ v u c, h₁.voted v u = some c → h'.voted v u = some c) (ha : w.act cfg a = some w')
    (env : Envelope Id) (he : w'.Wire env) (m rr ap : ℕ)
    (hmsg : env.msg = .appendEntriesReply t true m rr ap) (hn : n ≤ rr) : Calm h₁ t env.from_ := by
  obtain ⟨j, -, hshift⟩ := World.act_shift ha
  cases hshift with
  | @call r r' c _ hr hr' hc o hwire =>
    rcases hwire env he with he | ⟨hfrom, hsp⟩
    · exact pl.replies env he m rr ap hmsg hn
    · rw [hmsg] at hsp
      obtain ⟨rfl, -⟩ := hsp rfl
      obtain ⟨full, hnode⟩ := ok'.nodeOk hr'
      have hme : r'.me = j := hnode.me
      rw [hfrom, hme]
      exact calm_of_node ok' hv hr'
  | stop _ _ hwire => exact pl.replies env (hwire env he) m rr ap hmsg hn
  | drain _ _ _ hwire => exact pl.replies env (hwire env he) m rr ap hmsg hn
  | start _ _ _ hwire => exact pl.replies env (hwire env he) m rr ap hmsg hn

/-- The parts of the pledge that are read off the face of the leader. -/
def OnFace (cfg : Config Id) (h₁ : Rows Id) (t index n : ℕ) (f : Face Id) : Prop :=
  n ≤ f.readRound ∧
  (∀ p ∈ f.pendingReads, p.1 = n →
    f.term = t ∧ p.2.1 = index ∧ ∀ v ∈ p.2.2, v ∈ cfg.members ∧ Calm h₁ t v) ∧
  ∀ d ∈ f.readyReads, d.round = n →
    d.index = index ∧ ∃ Q, Quorum cfg.voters Q ∧ ∀ v ∈ Q, Calm h₁ t v

lemma onFace (pl : Pledged cfg h₁ i t index n h w) {r : Raft Id} (hr : w.peer i = .up r) :
    OnFace cfg h₁ t index n r.face :=
  ⟨pl.round r hr, pl.pending r hr, pl.ready r hr⟩

/-- An acknowledgement counts a calm voter, and a barrier with a quorum of them is ready. -/
lemma onFace_ack {r : Raft Id} {v : Id} {rr k : ℕ} (hcfg : r.cfg = cfg)
    (hf : OnFace cfg h₁ t index n r.face) (hv : v ∈ cfg.members)
    (hcalm : r.term = t → n ≤ rr → Calm h₁ t v) :
    OnFace cfg h₁ t index n { r.face with
      commitIndex := k
      pendingReads := (r.ackReads v rr).pendingReads
      readyReads := (r.ackReads v rr).readyReads } := by
  obtain ⟨hround, hpend, hready⟩ := hf
  have hins : ∀ q ∈ r.pendingReads, q.1 = n → q.1 ≤ rr →
      ∀ u ∈ insert v q.2.2, u ∈ cfg.members ∧ Calm h₁ t u := by
    intro q hq hqn hle u hu
    obtain ⟨ht, -, hacks⟩ := hpend q hq hqn
    rcases Finset.mem_insert.mp hu with rfl | hu
    · exact ⟨hv, hcalm ht (hqn ▸ hle)⟩
    · exact hacks u hu
  refine ⟨hround, ?_, ?_⟩
  · intro p hp hpn
    obtain ⟨q, hq, he, hi, hacks⟩ := Raft.mem_ackReads_pending hp
    have hqn : q.1 = n := he.symm.trans hpn
    obtain ⟨ht, hidx, hold⟩ := hpend q hq hqn
    refine ⟨ht, hi.trans hidx, ?_⟩
    rcases hacks with hacks | ⟨hle, hacks⟩
    · rw [hacks]
      exact hold
    · rw [hacks]
      exact hins q hq hqn hle
  · intro d hd hdn
    rcases Raft.mem_ackReads_ready hd with hd | ⟨q, hq, hle, he, hi, hcard⟩
    · exact hready d hd hdn
    · have hqn : q.1 = n := he.symm.trans hdn
      refine ⟨hi.trans (hpend q hq hqn).2.1, insert v q.2.2, ⟨fun u hu => ?_, ?_⟩, fun u hu => ?_⟩
      · exact Config.mem_voters.mpr (hins q hq hqn hle u hu).1
      · rw [Config.card_voters, ← hcfg]
        exact hcard
      · exact (hins q hq hqn hle u hu).2

/-- The pledge survives every action that leaves the leader's process alive. -/
theorem act (pl : Pledged cfg h₁ i t index n h w) (ok : ReadsOk cfg h w) (ok' : WorldOk cfg h' w')
    {i₀ : Id} (g : Grows i₀ h h') (ha : w.act cfg a = some w') (hends : ¬ a.Ends i)
    (hup : ∃ r, w.peer i = .up r) :
    Pledged cfg h₁ i t index n h' w' ∧ ∃ r', w'.peer i = .up r' := by
  have hv : ∀ v u c, h₁.voted v u = some c → h'.voted v u = some c :=
    fun v u c hvu => g.voted v u c (pl.votes v u c hvu)
  obtain ⟨r, hr⟩ := hup
  suffices hface : ∃ r', w'.peer i = .up r' ∧ OnFace cfg h₁ t index n r'.face by
    obtain ⟨r', hr', hround, hpend, hready⟩ := hface
    have hone : ∀ q, w'.peer i = .up q → q = r' := by
      intro q hq
      rw [hr', Peer.up.injEq] at hq
      exact hq.symm
    refine ⟨⟨hv, pl.act_replies ok' hv ha, ?_, ?_, ?_⟩, r', hr'⟩ <;> intro q hq <;> rw [hone q hq]
    · exact hround
    · exact hpend
    · exact hready
  obtain ⟨j, hother, hshift⟩ := World.act_shift ha
  by_cases hij : i = j
  swap
  · exact ⟨r, (hother i hij).trans hr, pl.onFace hr⟩
  subst hij
  have hold := pl.onFace hr
  cases hshift with
  | @call q r' c _ hq hr' hc o hwire =>
    rw [hr, Peer.up.injEq] at hq
    subst hq
    refine ⟨r', hr', ?_⟩
    have hnone : r.role ≠ .leader → r.pendingReads = [] := by
      intro hne
      rw [List.eq_nil_iff_forall_not_mem]
      exact fun p hp => hne (ok.pending i r hr p hp).1
    obtain ⟨hround, hpend, hready⟩ := hold
    cases o.turn with
    | same hf =>
      rw [hf]
      exact ⟨hround, hpend, hready⟩
    | retire _ hf =>
      rw [hf]
      exact ⟨hround, by simp, hready⟩
    | stand hne hf | lead hne _ hf =>
      rw [hf]
      refine ⟨hround, ?_, hready⟩
      change ∀ p ∈ r.pendingReads, _
      rw [hnone hne]
      simp
    | barrier hl _ hf =>
      rw [hf]
      refine ⟨hround.trans (Nat.le_succ _), ?_, hready⟩
      intro p hp hpn
      rcases List.mem_append.mp hp with hp | hp
      · exact hpend p hp hpn
      · rw [List.mem_singleton] at hp
        subst hp
        -- a new barrier has a new round
        have : r.readRound + 1 = n := hpn
        have : n ≤ r.readRound := hround
        omega
    | follow _ hp _ hf =>
      rw [hf]
      refine ⟨hround, ?_, hready⟩
      rcases hp with rfl | ⟨hfol, rfl⟩
      · simp
      · change ∀ p ∈ r.pendingReads, _
        rw [hnone (by rw [show r.role = .follower from hfol]; simp)]
        simp
    | @ack v to_ m rr ap k hl hmem _ hf =>
      obtain ⟨full, hn⟩ := ok.world.nodeOk hr
      have hcfg : r.cfg = cfg := hn.cfg_eq
      have hv' : v ∈ cfg.members := by
        rw [← hcfg]
        exact hmem
      rw [hf]
      by_cases hrr : 0 < rr
      · simp only [if_pos hrr]
        refine onFace_ack (r := r.enter) hcfg ⟨hround, hpend, hready⟩ hv' ?_
        rintro rfl hle
        exact pl.replies _ (Or.inl hc) m rr ap rfl hle
      · simp only [if_neg hrr]
        exact ⟨hround, hpend, hready⟩
    | taken hf =>
      rw [hf]
      exact ⟨hround, hpend, by simp⟩
  | stop he _ _ =>
    rcases he with rfl | ⟨c, k, rfl⟩ <;> exact absurd rfl hends
  | drain hq hr' hf _ =>
    rw [hr, Peer.up.injEq] at hq
    subst hq
    exact ⟨_, hr', hf ▸ hold⟩
  | start hq _ _ _ =>
    rw [hr] at hq
    cases hq

theorem runAll (pl : Pledged cfg h₁ i t index n h w) (ok : ReadsOk cfg h w)
    {as : List (Action Id)} (hrun : w.runAll cfg as = some w') (hends : ∀ a ∈ as, ¬ a.Ends i)
    (hup : ∃ r, w.peer i = .up r) : ∃ h', Pledged cfg h₁ i t index n h' w' := by
  induction as generalizing w h with
  | nil =>
    cases hrun
    exact ⟨h, pl⟩
  | cons a as ih =>
    rw [World.runAll, List.foldlM_cons] at hrun
    obtain ⟨w₁, ha, hrest⟩ := Option.bind_eq_some_iff.mp hrun
    obtain ⟨j, h₂, g, ok₂⟩ := ok.world.act_grows ha
    obtain ⟨pl₂, hup₂⟩ := pl.act ok ok₂ g ha (hends a (by simp)) hup
    exact ih pl₂ (ok.act ok₂ g ha) hrest (fun b hb => hends b (by simp [hb])) hup₂

/-- A barrier that just began: nobody can have answered its round yet. -/
theorem of_readBarrier (ok : ReadsOk cfg h w) {i₀ : Id} (g : Grows i₀ h h')
    (ha : w.act cfg (.call i .readBarrier) = some w') {r : Raft Id} (hr : w.peer i = .up r) :
    Pledged cfg h i r.term r.commitIndex (r.readRound + 1) h' w' ∧ (∃ r', w'.peer i = .up r') ∧
      r.role = .leader ∧ r.termAt r.commitIndex = r.term := by
  simp only [World.act, hr] at ha
  split at ha <;> try contradiction
  split at ha <;> try contradiction
  rename_i r' evs hrun
  obtain ⟨⟨k, q⟩, hq, hr'⟩ := CoreResult.map_eq_ok hrun
  cases hr'
  cases ha
  obtain ⟨o, hl, ht, -, hface⟩ := Raft.readBarrier_outcome hq
  have hl : r.role = .leader := hl
  have hpeer : ((w.setPeer i (.up q)).record i []).peer i = .up q := by
    simp [World.setPeer, World.record]
  obtain ⟨full, hn⟩ := ok.world.nodeOk hr
  have hme : r.me = i := hn.me
  have hface : OnFace cfg h r.term r.commitIndex (r.readRound + 1) q.face := by
    rw [hface]
    refine ⟨le_rfl, ?_, ?_⟩
    · intro p hp hpn
      rcases List.mem_append.mp hp with hp | hp
      · have := (ok.pending i r hr p hp).2
        omega
      · rw [List.mem_singleton] at hp
        subst hp
        refine ⟨rfl, rfl, fun v hv => ?_⟩
        rw [Finset.mem_singleton] at hv
        subst hv
        change r.me ∈ cfg.members ∧ Calm h r.term r.me
        rw [hme]
        exact ⟨hn.member, calm_of_node ok.world (fun _ _ _ hv => hv) hr⟩
    · intro d hd hdn
      have := ok.ready i r hr d hd
      omega
  refine ⟨⟨g.voted, ?_, ?_, ?_, ?_⟩, ⟨q, hpeer⟩, hl, ht⟩
  · intro env he m rr ap hmsg hle
    exfalso
    obtain hold | ⟨s, hs, he⟩ := World.wire_setPeer (w := w) he rfl rfl
    · have := ok.round i r hr hl env hold rr (by rw [hmsg]; rfl)
      omega
    · cases hs
      obtain ⟨out, hout, hsp⟩ := o.speaks
      rw [hout, List.mem_append] at he
      rcases he with he | he
      · have := ok.round i r hr hl env (Or.inr ⟨i, r, hr, he⟩) rr (by rw [hmsg]; rfl)
        omega
      · obtain ⟨-, hsp⟩ := hsp env he
        rw [hmsg] at hsp
        obtain ⟨-, _, _, _, _, _, _, hcall⟩ := hsp rfl
        cases hcall
  all_goals
    intro s hs
    rw [hpeer, Peer.up.injEq] at hs
    subst hs
  · exact hface.1
  · exact hface.2.1
  · exact hface.2.2

end Pledged

/-- An index known when a barrier begins is within the leader's commit index, unless a later term
has elected a leader; and a quorum of calm voters excludes that. -/
theorem Known.le_commitIndex (ok : WorldOk cfg h w) {r : Raft Id} (hr : w.peer i = .up r)
    (hl : r.role = .leader) (ht : r.termAt r.commitIndex = r.term) {Q : Finset Id}
    (hQ : Quorum cfg.voters Q) (hcalm : ∀ v ∈ Q, Calm h r.term v) {k : ℕ}
    (hk : Known cfg h w k) : k ≤ r.commitIndex := by
  rcases hk with rfl | ⟨s, m, hkm, hc, hlead⟩
  · exact Nat.zero_le _
  refine hkm.trans ?_
  obtain ⟨full, hn⟩ := ok.nodeOk hr
  have lok := hn.leader hl
  have hlog : h.leaderLog r.term = full := lok.log
  obtain ⟨c, hled⟩ := hc.led ok.ledger.toSound
  rcases Nat.lt_trichotomy s r.term with hlt | heq | hgt
  · -- the leader's log starts with the prefix; its own entry lies beyond it
    by_contra hnot
    have hp := ok.ledger.toSound.leader_complete hc hlt lok.led
    have hp : (h.leaderLog s).take m <+: full := hlog ▸ hp
    have v : r.Views full := hn.live.view
    have htp : 0 < r.term := lok.term_pos
    rw [v.termAt] at ht
    split at ht
    · omega
    cases hci : r.commitIndex with
    | zero =>
      rw [hci] at ht
      simp only [termOf, if_true] at ht
      omega
    | succ n =>
      rw [hci] at ht hnot
      rw [termOf_succ] at ht
      have hm := hc.1.le_length
      have hs : (h.leaderLog s)[n]? = full[n]? :=
        getElem?_eq_of_take_eq ((take_prefix_iff hm).mp hp).1.symm (by omega)
      obtain ⟨e, he⟩ : ∃ e, (h.leaderLog s)[n]? = some e :=
        ⟨_, List.getElem?_eq_getElem (by omega)⟩
      rw [← hs, he] at ht
      have := ok.ledger.toSound.term_le s e (List.mem_of_getElem? he)
      change e.term ≤ s at this
      change e.term = r.term at ht
      omega
  · exact hlead i r hr hl heq.symm
  · obtain ⟨P, hP, hvotes⟩ := ok.ledger.toSound.elected s c hled
    obtain ⟨v, hvP, hvQ⟩ := hP.inter hQ
    have := hcalm v hvQ s hgt
    rw [(hvotes v hvP).1] at this
    cases this

end Barrier

/-- A read round that `readBarrier` began on voter `i` and that later, in the same process, is
ready with `index` covers every index that any voter had committed at any time before the call. -/
theorem ready_read_covers_commits {w₀ w₁ w₂ w₃ : World Id} (hw : Reachable cfg w₀)
    {before after : List (Action Id)} (hbefore : w₀.runAll cfg before = some w₁) {i : Id}
    {r r₁ : Raft Id} {round : ℕ} (hr : w₁.peer i = .up r) (hbarrier : r.readBarrier = .ok (round, r₁))
    (hcall : w₁.act cfg (.call i .readBarrier) = some w₂)
    (hafter : w₂.runAll cfg after = some w₃) (hlife : ∀ a ∈ after, ¬ a.Ends i) {r₃ : Raft Id}
    (hr₃ : w₃.peer i = .up r₃) {index : ℕ} (hready : ⟨round, index⟩ ∈ r₃.takeReadyReads.1)
    {j : Id} {q : Raft Id} (hq : w₀.peer j = .up q) : q.commitIndex ≤ index := by
  obtain ⟨h₀, ok₀⟩ := hw.readsOk
  obtain ⟨h₁, ok₁, hstays⟩ := ok₀.runAll hbefore
  obtain ⟨i₀, h₂, g, ok₂⟩ := ok₁.world.act_grows hcall
  obtain ⟨pl, hup, hl, ht⟩ := Pledged.of_readBarrier ok₁ g hcall hr
  obtain ⟨h₃, pl₃⟩ := pl.runAll (ok₁.act ok₂ g hcall) hafter hlife hup
  have hround : round = r.readRound + 1 := (Raft.readBarrier_outcome hbarrier).2.2.2.1
  obtain ⟨hidx, Q, hQ, hcalm⟩ := pl₃.ready r₃ hr₃ ⟨round, index⟩ hready hround
  have hidx : index = r.commitIndex := hidx
  rw [hidx]
  exact (hstays _ (ok₀.node j q hq)).le_commitIndex ok₁.world hr hl ht hQ hcalm

/-- Two voters elect the first, which commits its term no-op. -/
def leaderRun : List (Action ℕ) :=
  [.restart 0 fun _ => 0, .restart 1 fun _ => 0, .call 0 .tick, .drain 0,
    .call 1 (.step ⟨0, 1, .requestVote 1 0 0⟩), .drain 1,
    .call 0 (.step ⟨1, 0, .requestVoteReply 1 true⟩), .drain 0,
    .call 1 (.step ⟨0, 1, .appendEntries 1 0 0 [⟨1, 1, []⟩] 0 0⟩), .drain 1,
    .call 0 (.step ⟨1, 0, .appendEntriesReply 1 true 1 0 0⟩)]

/-- The other voter answers the first barrier. -/
def answerRun : List (Action ℕ) :=
  [.drain 0, .call 1 (.step ⟨0, 1, .appendEntries 1 1 1 [] 1 1⟩), .drain 1,
    .call 0 (.step ⟨1, 0, .appendEntriesReply 1 true 1 1 0⟩)]

def World.node? (w : World Id) (i : Id) : Option (Raft Id) :=
  match w.peer i with
  | .up r => some r
  | .down _ => none

lemma World.node?_eq_some {i : Id} {r : Raft Id} (h : w.node? i = some r) : w.peer i = .up r := by
  unfold World.node? at h
  split at h
  · cases h
    assumption
  · cases h

theorem ready_read_covers_commits_answerRun : ∃ (cfg : Config ℕ) (w₁ w₂ w₃ : World ℕ) (r r₃ : Raft ℕ),
    Reachable cfg w₁ ∧ w₁.peer 0 = .up r ∧ w₁.act cfg (.call 0 .readBarrier) = some w₂ ∧
      w₂.runAll cfg answerRun = some w₃ ∧ w₃.peer 0 = .up r₃ ∧
      r₃.takeReadyReads.1 = [⟨1, 1⟩] ∧ r.commitIndex ≤ 1 := by
  let cfg : Config ℕ := ⟨[0, 1], 1, 2, 1, by decide⟩
  have hrun : (do
      let w₁ ← World.init.runAll cfg leaderRun
      let w₂ ← w₁.act cfg (.call 0 .readBarrier)
      let w₃ ← w₂.runAll cfg answerRun
      let r ← w₁.node? 0
      let r₃ ← w₃.node? 0
      pure (r.readBarrier.toOption.map Prod.fst, r₃.takeReadyReads.1)) =
      some (some 1, [⟨1, 1⟩]) := by decide
  simp only [Option.bind_eq_bind, Option.bind_eq_some_iff, Option.pure_def, Option.some.injEq,
    Prod.mk.injEq] at hrun
  obtain ⟨w₁, h₁, w₂, h₂, w₃, h₃, r, hr, r₃, hr₃, hbarrier, hready⟩ := hrun
  have hreach := Reachable.init.runAll leaderRun h₁
  have hr := World.node?_eq_some hr
  have hr₃ := World.node?_eq_some hr₃
  obtain ⟨⟨n, r₁⟩, hb, hn⟩ := Option.map_eq_some_iff.mp hbarrier
  obtain rfl : n = 1 := hn
  have hb : r.readBarrier = .ok (1, r₁) := by
    cases hx : r.readBarrier with
    | error e =>
      rw [hx] at hb
      cases hb
    | ok x =>
      rw [hx] at hb
      cases hb
      rfl
  refine ⟨cfg, w₁, w₂, w₃, r, r₃, hreach, hr, h₂, h₃, hr₃, hready, ?_⟩
  exact ready_read_covers_commits hreach (show w₁.runAll cfg [] = some w₁ from rfl) hr hb h₂ h₃
    (by simp [answerRun, Action.Ends]) hr₃ (by rw [hready]; exact List.mem_singleton_self _) hr

end CarolinaDB.Consensus
