import CarolinaDB.RaftCalls
import CarolinaDB.RaftCluster

/-!
# State-machine safety of the cluster

Every reachable world matches an election history. What the voters deliver is
then committed in that history, where two committed prefixes agree.
-/
namespace CarolinaDB.Consensus

open ElectionHistory

variable {Id : Type} [LinearOrder Id] {cfg : Config Id} {h₀ h h' : Rows Id}

/-- Everything up to `frontier` is accounted for, and nothing above it was delivered. -/
structure Frontier (life : List LifeEvent) (frontier : ℕ) : Prop where
  delivered_le : ∀ e, .delivered e ∈ life → e.index ≤ frontier
  covered : ∀ index, 0 < index → index ≤ frontier → ∃ ev ∈ life, ev.covers index

section Life
variable {life : List LifeEvent} {d : ℕ}

/-- Events other than deliveries may only raise the frontier to what they cover. -/
lemma Frontier.raise (f : Frontier life d) {ev : LifeEvent} (hev : ev.entry? = none) {n : ℕ}
    (hn : ∀ index, d < index → index ≤ n → ev.covers index) : Frontier (life ++ [ev]) (max d n) where
  delivered_le e he := by
    rw [List.mem_append, List.mem_singleton] at he
    rcases he with he | rfl
    · exact (f.delivered_le e he).trans (le_max_left _ _)
    · simp [LifeEvent.entry?] at hev
  covered index h0 hle := by
    rcases Nat.lt_or_ge d index with hlt | hge
    · refine ⟨ev, by simp, hn index hlt ?_⟩
      rcases le_max_iff.mp hle with hle | hle
      · omega
      · exact hle
    · obtain ⟨ev', hm, hc⟩ := f.covered index h0 hge
      exact ⟨ev', List.mem_append_left _ hm, hc⟩

lemma Frontier.deliver (f : Frontier life d) {e : Entry} (he : e.index = d+1) :
    Frontier (life ++ [.delivered e]) (d+1) where
  delivered_le e' he' := by
    rw [List.mem_append, List.mem_singleton] at he'
    rcases he' with he' | he'
    · exact (f.delivered_le e' he').trans (Nat.le_succ d)
    · cases he'
      exact he.le
  covered index h0 hle := by
    rcases Nat.eq_or_lt_of_le hle with rfl | hlt
    · exact ⟨.delivered e, by simp, he⟩
    · obtain ⟨ev, hm, hc⟩ := f.covered index h0 (by omega)
      exact ⟨ev, List.mem_append_left _ hm, hc⟩

/-- Only the last event of an extended life is new. -/
lemma LifeOk.snoc (ok : LifeOk life) {ev : LifeEvent}
    (hev : ∀ e, ev = .delivered e → (∀ d, .delivered d ∈ life → d.index < e.index) ∧
      ∀ index, 0 < index → index < e.index → ∃ ev ∈ life, ev.covers index) :
    LifeOk (life ++ [ev]) := by
  intro before e after heq
  rcases List.eq_nil_or_concat after with rfl | ⟨rest, last, rfl⟩
  · obtain ⟨rfl, hlast⟩ := List.append_inj' heq rfl
    exact hev e (List.singleton_inj.mp hlast)
  · rw [List.concat_eq_append, ← List.cons_append, ← List.append_assoc] at heq
    exact ok before e rest (List.append_inj' heq rfl).1

lemma LifeOk.snoc_other (ok : LifeOk life) {ev : LifeEvent} (hev : ev.entry? = none) :
    LifeOk (life ++ [ev]) :=
  ok.snoc (by rintro e rfl; simp [LifeEvent.entry?] at hev)

lemma LifeOk.deliver (ok : LifeOk life) (f : Frontier life d) {e : Entry} (he : e.index = d+1) :
    LifeOk (life ++ [.delivered e]) := by
  apply ok.snoc
  rintro _ ⟨⟩
  refine ⟨fun e' he' => ?_, fun index h0 hlt => f.covered index h0 (by omega)⟩
  have := f.delivered_le e' he'
  omega

/-- A delivery of consecutive entries. -/
lemma LifeOk.deliverAll (ok : LifeOk life) (f : Frontier life d) (out : List Entry)
    (hout : ∀ k e, out[k]? = some e → e.index = d + k + 1) :
    LifeOk (life ++ out.map .delivered) ∧ Frontier (life ++ out.map .delivered) (d + out.length) := by
  induction out generalizing life d with
  | nil => simpa using ⟨ok, f⟩
  | cons e out ih =>
    have he : e.index = d+1 := hout 0 e rfl
    have := ih (ok.deliver f he) (f.deliver he) (by
      intro k e' hk
      have := hout (k+1) e' hk
      omega)
    rw [List.map_cons, List.append_cons, List.length_cons]
    rwa [Nat.add_right_comm, Nat.add_assoc] at this

end Life

namespace Raft

/-- The delivery loop hands out consecutive stored entries and advances by as many. -/
lemma takeCommittedLoop_eq (n : ℕ) (r : Raft Id) :
    (takeCommittedLoop n r).1.length ≤ n ∧
    (takeCommittedLoop n r).2 =
      { r with lastDelivered := r.lastDelivered + (takeCommittedLoop n r).1.length } ∧
    ∀ k e, (takeCommittedLoop n r).1[k]? = some e → r.entry (r.lastDelivered + k + 1) = some e := by
  induction n generalizing r with
  | zero => simp [takeCommittedLoop]
  | succ n ih =>
    unfold takeCommittedLoop
    cases he : r.entry (r.lastDelivered + 1) with
    | none => simp
    | some e =>
      obtain ⟨hlen, heq, hent⟩ := ih { r with lastDelivered := r.lastDelivered + 1 }
      simp only [List.length_cons]
      refine ⟨by omega, ?_, ?_⟩
      · rw [heq]
        simp only [Nat.add_assoc, Nat.add_comm 1]
      · intro k e' hk
        cases k with
        | zero =>
          simp only [List.getElem?_cons_zero] at hk
          rw [← hk]
          exact he
        | succ k =>
          rw [List.getElem?_cons_succ] at hk
          have := hent k e' hk
          change r.entry (r.lastDelivered + 1 + k + 1) = some e' at this
          rw [← this]
          congr 1
          omega

end Raft

/-- Committed in the history, at the index it carries. -/
def Certified (cfg : Config Id) (h : Rows Id) (e : Entry) : Prop :=
  ∃ t l k n, Committed cfg.voters h t l k ∧ n < k ∧ l[n]? = some e ∧ e.index = n+1

lemma Certified.grow {i : Id} (g : Grows i h h') {e : Entry} (hc : Certified cfg h e) :
    Certified cfg h' e := by
  obtain ⟨t, l, k, n, hc, hn, he, hi⟩ := hc
  exact ⟨t, l, k, n, g.committed hc, hn, he, hi⟩

lemma Certified.agree (hs : Sound cfg.voters h) {d e : Entry} (hd : Certified cfg h d)
    (he : Certified cfg h e) (hi : d.index = e.index) : d = e := by
  obtain ⟨t, l, j, n, hl, hn, hld, hdi⟩ := hd
  obtain ⟨u, m, k, n', hm, hn', hme, hei⟩ := he
  obtain rfl : n = n' := by omega
  have := hl.agree hs hm hn hn'
  rw [hld, hme] at this
  exact Option.some.inj this

section Node
variable {i : Id} {r : Raft Id} {full : List Entry}

lemma compactionHorizon_le (r : Raft Id) : r.compactionHorizon ≤ r.commitIndex := min_le_right _ _

/-- Compaction drops a committed prefix whose term the node still knows. -/
theorem Kept.compact (K : Kept cfg h₀ i h full r) (n : ℕ) :
    Kept cfg h₀ i h full (r.compact n).2 := by
  unfold Raft.compact
  extract_lets target term keep
  have v : r.Views full := K.node.live.view
  split
  · exact K
  rename_i htarget
  split
  · exact K
  have hlen : target ≤ full.length := by
    rw [← v.lastIndex]
    exact min_le_right _ _
  have hcommit : target ≤ r.commitIndex :=
    (min_le_left _ _).trans ((min_le_right _ _).trans (compactionHorizon_le r))
  have hterm : term = termOf full target := by
    unfold term
    rw [v.termAt, if_neg (by omega)]
  have hdrop : r.log.drop (min keep r.log.length) = r.log.drop (target - r.snapshotIndex) := by
    have hkeep : keep = target - r.snapshotIndex := by
      unfold keep
      rw [Raft.logPos, if_neg (by omega), Option.getD_some]
      omega
    rw [hkeep, Nat.min_eq_left]
    rw [v.log_length]
    omega
  have hview := v.compact (k := target) (by omega) hlen
  rw [← hterm, ← hdrop] at hview
  have hnode : NodeOk cfg h i full (Raft.core { r with
      storage := r.storage.compactTo target term
      log := r.log.drop (min keep r.log.length)
      snapshotIndex := target
      snapshotTerm := term
      lastDelivered := max r.lastDelivered target
      applied := max r.applied target }) := by
    have hs : r.storage.state = r.live := K.node.synced
    refine ⟨K.node.me, K.node.member, K.node.cfg_eq, ?_, ⟨hview, K.node.live.voter,
      K.node.commit.le hcommit⟩, K.node.commit, ?_, ?_⟩
    · simp only [Raft.core, Raft.live, Storage.compactTo, Storage.write, hs]
      rw [hdrop, v.filter_gt (by omega)]
    · intro hr
      have ok := K.node.leader hr
      exact ⟨ok.term_pos, ok.led, ok.log, ok.matched⟩
    · intro hr
      have ok := K.node.candidate hr
      exact ⟨ok.term_pos, ok.stood, ok.not_led, ok.votes⟩
  refine ⟨K.grows, K.ledger, hnode, K.outbox, ?_⟩
  intro p hp
  simp only [Storage.compactTo, Storage.write, List.mem_cons] at hp
  rcases hp with rfl | hp
  · have hlive := hnode.live
    rw [← hnode.synced] at hlive
    exact ⟨h, full, K.grows, K.ledger, hlive⟩
  · exact K.trail p hp

/-- Where compaction leaves the base and the delivery frontier. -/
lemma compact_frontier (r : Raft Id) (n : ℕ) (hb : r.snapshotIndex ≤ r.lastDelivered) :
    (r.compact n).2.snapshotIndex = (r.compact n).1 ∧
      (r.compact n).2.lastDelivered = max r.lastDelivered (r.compact n).1 := by
  unfold Raft.compact
  extract_lets target term keep
  split
  · exact ⟨rfl, (max_eq_left hb).symm⟩
  · split
    · exact ⟨rfl, (max_eq_left hb).symm⟩
    · exact ⟨rfl, rfl⟩

/-- A running voter between calls. -/
structure UpOk (cfg : Config Id) (h : Rows Id) (i : Id) (life : List LifeEvent)
    (r : Raft Id) : Prop where
  node : ∃ full, NodeOk cfg h i full r.core
  outbox : ∀ env ∈ r.outbox, MsgOk cfg h env
  frontier : Frontier life r.lastDelivered
  base_le : r.snapshotIndex ≤ r.lastDelivered

/-- What a call leaves: the history it extended, a voter in order, and durable states and
deliveries that the history accounts for. -/
structure CallOk (cfg : Config Id) (h₀ : Rows Id) (i : Id) (life : List LifeEvent)
    (r' : Raft Id) (evs : List LifeEvent) (h : Rows Id) : Prop where
  grows : Grows i h₀ h
  ledger : Ledger cfg h
  up : UpOk cfg h i (life ++ evs) r'
  trail : ∀ p ∈ r'.storage.trail, Recoverable cfg h₀ i p
  life : LifeOk (life ++ evs)
  handed : ∀ e, .delivered e ∈ evs → Certified cfg h e

variable {life : List LifeEvent}

lemma UpOk.running (u : UpOk cfg h i life r) (hl : Ledger cfg h) (he : r.me = i) :
    ∃ full, Running cfg h r h full r.enter := by
  obtain ⟨full, hn⟩ := u.node
  subst he
  exact ⟨full, ⟨Grows.refl _ _, hl, hn, u.outbox, by simp [Raft.enter]⟩, rfl, rfl⟩

lemma Running.callOk {r' : Raft Id} (R : Running cfg h₀ r h full r') (u : UpOk cfg h₀ r.me life r)
    (hlife : LifeOk life) : CallOk cfg h₀ r.me life r' [] h where
  grows := R.grows
  ledger := R.ledger
  up := by
    refine ⟨⟨full, R.node⟩, R.outbox, ?_, ?_⟩
    · rw [List.append_nil, R.lastDelivered]
      exact u.frontier
    · rw [R.lastDelivered, R.base]
      exact u.base_le
  trail := R.trail
  life := by rwa [List.append_nil]
  handed := by simp

/-- Delivery: the entries handed out are committed, consecutive and above the frontier. -/
lemma UpOk.takeCommitted (u : UpOk cfg h i life r) (hl : Ledger cfg h) (hlife : LifeOk life) :
    CallOk cfg h i life r.enter.takeCommitted.2 (r.enter.takeCommitted.1.map .delivered) h := by
  obtain ⟨full, hn⟩ := u.node
  obtain ⟨hlen, heq, hent⟩ :=
    Raft.takeCommittedLoop_eq (r.enter.commitIndex - r.enter.lastDelivered) r.enter
  change _ at heq
  unfold Raft.takeCommitted
  set out := (Raft.takeCommittedLoop (r.enter.commitIndex - r.enter.lastDelivered) r.enter).1
    with hout
  have hfull : ∀ k e, out[k]? = some e → full[r.lastDelivered + k]? = some e := by
    intro k e hk
    have := hent k e hk
    have v : r.enter.Views full := hn.live.view
    rwa [v.entry_above (by have := u.base_le; simp [Raft.enter]; omega)] at this
  have hidx : ∀ k e, out[k]? = some e → e.index = r.lastDelivered + k + 1 :=
    fun k e hk => hn.live.view.numbered.index _ e (hfull k e hk)
  obtain ⟨hok, hfront⟩ := hlife.deliverAll u.frontier out hidx
  rw [heq]
  refine ⟨Grows.refl _ _, hl, ⟨⟨full, hn⟩, u.outbox, hfront, ?_⟩, by simp [Raft.enter], hok, ?_⟩
  · exact u.base_le.trans (Nat.le_add_right _ _)
  · intro e he
    obtain ⟨d, hd, ⟨⟩⟩ := List.mem_map.mp he
    obtain ⟨k, hk⟩ := List.mem_iff_getElem?.mp hd
    have hklen := length_of_getElem? hk
    have : r.enter.commitIndex = r.commitIndex := rfl
    have : r.enter.lastDelivered = r.lastDelivered := rfl
    exact ⟨_, full, r.commitIndex, _, hn.commit, by omega, hfull k e hk, hidx k e hk⟩

lemma UpOk.setApplied (u : UpOk cfg h i life r) (hl : Ledger cfg h) (hlife : LifeOk life) (n : ℕ) :
    CallOk cfg h i life (r.enter.setApplied n) [.applied n] h := by
  obtain ⟨full, hn⟩ := u.node
  refine ⟨Grows.refl _ _, hl, ⟨⟨full, hn⟩, u.outbox, ?_, ?_⟩, by simp [Raft.enter, Raft.setApplied],
    hlife.snoc_other rfl, by simp⟩
  · refine u.frontier.raise rfl (n := max (min n r.lastIndex) r.snapshotIndex) ?_
    intro index hlt hle
    have := u.base_le
    change index ≤ n
    omega
  · exact u.base_le.trans (le_max_left _ _)

lemma UpOk.compact (u : UpOk cfg h i life r) (hl : Ledger cfg h) (hlife : LifeOk life) (n : ℕ) :
    CallOk cfg h i life (r.enter.compact n).2 [.compacted (r.enter.compact n).1] h := by
  obtain ⟨full, hn⟩ := u.node
  have K : Kept cfg h i h full r.enter :=
    ⟨Grows.refl _ _, hl, hn, u.outbox, by simp [Raft.enter]⟩
  have K' := K.compact n
  obtain ⟨hbase, hlast⟩ := compact_frontier r.enter n u.base_le
  refine ⟨Grows.refl _ _, hl, ⟨⟨full, K'.node⟩, K'.outbox, ?_, ?_⟩, K'.trail,
    hlife.snoc_other rfl, by simp⟩
  · rw [hlast]
    exact u.frontier.raise rfl fun _ _ hle => hle
  · rw [hbase, hlast]
    exact le_max_right _ _

/-- Every call of a voter extends the history and leaves the voter in order. -/
theorem UpOk.run (u : UpOk cfg h i life r) (hl : Ledger cfg h) (hlife : LifeOk life)
    (c : Call Id) (hm : ∀ env, c = .step env → MsgOk cfg h env) {r' : Raft Id}
    {evs : List LifeEvent} (hrun : r.enter.run c = .ok (r', evs)) :
    ∃ h', CallOk cfg h i life r' evs h' := by
  obtain rfl : r.me = i := by
    obtain ⟨full, hn⟩ := u.node
    exact hn.me
  obtain ⟨full, R⟩ := u.running hl rfl
  cases c with
  | tick =>
    cases hrun
    obtain ⟨h', full', R'⟩ := R.tick
    exact ⟨h', R'.callOk u hlife⟩
  | propose data =>
    obtain ⟨⟨n, q⟩, hq, ⟨⟩⟩ := CoreResult.map_eq_ok hrun
    obtain ⟨h', full', R'⟩ := R.propose hq
    exact ⟨h', R'.callOk u hlife⟩
  | readBarrier =>
    obtain ⟨⟨n, q⟩, hq, ⟨⟩⟩ := CoreResult.map_eq_ok hrun
    exact ⟨h, (R.readBarrier hq).callOk u hlife⟩
  | step env =>
    obtain ⟨q, hq, ⟨⟩⟩ := CoreResult.map_eq_ok hrun
    obtain ⟨q', h', full', hq', R'⟩ := R.step (hm env rfl)
    rw [hq, Except.ok.injEq] at hq'
    subst hq'
    exact ⟨h', R'.callOk u hlife⟩
  | setApplied n =>
    cases hrun
    exact ⟨h, u.setApplied hl hlife n⟩
  | compact n =>
    cases hrun
    exact ⟨h, u.compact hl hlife n⟩
  | takeCommitted =>
    cases hrun
    exact ⟨h, u.takeCommitted hl hlife⟩
  | takeReadyReads =>
    cases hrun
    exact ⟨h, Running.callOk (R.frame rfl rfl rfl rfl) u hlife⟩

end Node

def PeerOk (cfg : Config Id) (h : Rows Id) (i : Id) (life : List LifeEvent) : Peer Id → Prop
  | .up r => UpOk cfg h i life r
  | .down p => ∃ full, DiskOk cfg h i full p

structure WorldOk (cfg : Config Id) (h : Rows Id) (w : World Id) : Prop where
  ledger : Ledger cfg h
  peer : ∀ i, PeerOk cfg h i (w.life i) (w.peer i)
  sent : ∀ env ∈ w.sent, MsgOk cfg h env
  handed : ∀ i, ∀ e ∈ w.handed i, Certified cfg h e
  life : ∀ i, LifeOk (w.life i)

lemma PeerOk.grow {i j : Id} (g : Grows i h h') (hs : Sound cfg.voters h) (hj : j ≠ i)
    {life : List LifeEvent} {p : Peer Id} (hp : PeerOk cfg h j life p) : PeerOk cfg h' j life p := by
  cases p with
  | up r =>
    obtain ⟨full, hn⟩ := hp.node
    exact ⟨⟨full, hn.grow g hs hj⟩, fun env he => (hp.outbox env he).grow g, hp.frontier, hp.base_le⟩
  | down p =>
    obtain ⟨full, hd⟩ := hp
    exact ⟨full, hd.grow g hs hj⟩

namespace WorldOk

variable {w : World Id} {i : Id}

lemma init : WorldOk cfg History.empty World.init where
  ledger := ⟨Sound.empty, fun _ => Numbered.nil⟩
  peer i := by
    refine ⟨[], LogView.initial, ?_, Or.inl rfl⟩
    constructor <;> simp [Attested, Keeps, History.empty, Persistent.default]
  sent := by simp [World.init]
  handed := by simp [World.init]
  life i before e after heq := by simp [World.init] at heq

/-- One voter changes; the history it extends keeps everything else in order. -/
lemma setPeer (ok : WorldOk cfg h w) (g : Grows i h h') (hl : Ledger cfg h') {p : Peer Id}
    (hp : PeerOk cfg h' i (w.life i) p) : WorldOk cfg h' (w.setPeer i p) where
  ledger := hl
  peer j := by
    by_cases hj : j = i
    · subst hj
      simpa [World.setPeer] using hp
    · simpa [World.setPeer, hj] using (ok.peer j).grow g ok.ledger.toSound hj
  sent env he := (ok.sent env he).grow g
  handed j e he := (ok.handed j e he).grow g
  life := ok.life

lemma call (ok : WorldOk cfg h w) {r r' : Raft Id} {evs : List LifeEvent} (hp : w.peer i = .up r)
    {c : Call Id} (hc : c.Deliverable w.sent) (hrun : r.enter.run c = .ok (r', evs)) :
    ∃ h', CallOk cfg h i (w.life i) r' evs h' := by
  have u : PeerOk cfg h i (w.life i) (.up r) := hp ▸ ok.peer i
  refine UpOk.run u ok.ledger (ok.life i) c ?_ hrun
  rintro env rfl
  exact ok.sent env hc

/-- A call that completes leaves the world in order for the history it extended. -/
lemma record (ok : WorldOk cfg h w) {r' : Raft Id} {evs : List LifeEvent}
    (k : CallOk cfg h i (w.life i) r' evs h') :
    WorldOk cfg h' ((w.setPeer i (.up r')).record i evs) where
  ledger := k.ledger
  peer j := by
    by_cases hj : j = i
    · subst hj
      simpa [World.setPeer, World.record, PeerOk] using k.up
    · simpa [World.setPeer, World.record, hj] using
        (ok.peer j).grow k.grows ok.ledger.toSound hj
  sent env he := (ok.sent env he).grow k.grows
  handed j e he := by
    by_cases hj : j = i
    · subst hj
      simp only [World.record, World.setPeer, Function.update_self, List.mem_append,
        List.mem_filterMap] at he
      rcases he with he | ⟨ev, hev, hent⟩
      · exact (ok.handed j e he).grow k.grows
      · cases ev <;> simp only [LifeEvent.entry?, Option.some.injEq, reduceCtorEq] at hent
        exact k.handed e (hent ▸ hev)
    · simp only [World.record, World.setPeer, Function.update_of_ne hj] at he
      exact (ok.handed j e he).grow k.grows
  life j := by
    by_cases hj : j = i
    · subst hj
      simpa [World.record, World.setPeer] using k.life
    · simpa [World.record, World.setPeer, hj] using ok.life j

/-- Every action keeps the world in order, for an extension of the history by one voter. -/
theorem act_grows (ok : WorldOk cfg h w) {a : Action Id} {w' : World Id}
    (ha : w.act cfg a = some w') : ∃ i h', Grows i h h' ∧ WorldOk cfg h' w' := by
  obtain ⟨i, r, c, r', evs, hp, hc, hrun, rfl⟩ | ⟨i, r, c, r', evs, p, hp, hc, hrun, hmem, rfl⟩ |
    ⟨i, r, hp, rfl⟩ | ⟨i, r, hp, rfl⟩ | ⟨i, p, rng, r, hp, hnew, rfl⟩ := World.act_cases ha
  · obtain ⟨h', k⟩ := ok.call hp hc hrun
    exact ⟨i, h', k.grows, ok.record k⟩
  · obtain ⟨h', k⟩ := ok.call hp hc hrun
    obtain ⟨h'', full, g, hl, hd⟩ := k.trail p hmem
    exact ⟨i, h'', g, ok.setPeer g hl ⟨full, hd⟩⟩
  · have u : PeerOk cfg h i (w.life i) (.up r) := hp ▸ ok.peer i
    obtain ⟨full, hn⟩ := u.node
    have hd := hn.live
    rw [← hn.synced] at hd
    exact ⟨i, h, Grows.refl _ _, ok.setPeer (Grows.refl _ _) ok.ledger ⟨full, hd⟩⟩
  · have u : PeerOk cfg h i (w.life i) (.up r) := hp ▸ ok.peer i
    have ok' := ok.setPeer (Grows.refl i h) ok.ledger (p := .up r.takeOutbox.2)
      ⟨u.node, by simp [Raft.takeOutbox], u.frontier, u.base_le⟩
    refine ⟨i, h, Grows.refl _ _, ok'.ledger, ok'.peer, fun env he => ?_, ok'.handed, ok'.life⟩
    rcases List.mem_append.mp he with he | he
    · exact ok.sent env he
    · exact u.outbox env he
  · have hd : PeerOk cfg h i (w.life i) (.down p) := hp ▸ ok.peer i
    obtain ⟨full, hd⟩ := hd
    have hr : UpOk cfg h i [.compacted p.snapshotIndex] r := by
      unfold Raft.new at hnew
      split at hnew
      · rename_i hmem
        cases hnew
        refine ⟨⟨full, .follower rfl hmem rfl rfl hd (Or.inl rfl) rfl⟩, fun _ he => (by cases he),
          ⟨by simp, ?_⟩, le_rfl⟩
        exact fun index _ hle => ⟨_, List.mem_singleton_self _, hle⟩
      · cases hnew
    refine ⟨i, h, Grows.refl _ _, ok.ledger, fun j => ?_, ok.sent, ok.handed, fun j => ?_⟩
    · by_cases hj : j = i
      · subst hj
        simpa [World.setPeer, PeerOk] using hr
      · simpa [World.setPeer, hj] using ok.peer j
    · by_cases hj : j = i
      · subst hj
        intro before e after heq
        simp only [Function.update_self] at heq
        rcases before with _ | ⟨x, _ | ⟨y, l⟩⟩ <;> simp at heq
      · simpa [hj] using ok.life j

theorem act (ok : WorldOk cfg h w) {a : Action Id} {w' : World Id} (ha : w.act cfg a = some w') :
    ∃ h', WorldOk cfg h' w' := by
  obtain ⟨_, h', _, ok'⟩ := ok.act_grows ha
  exact ⟨h', ok'⟩

end WorldOk

theorem Reachable.worldOk {w : World Id} (hw : Reachable cfg w) : ∃ h, WorldOk cfg h w := by
  induction hw with
  | init => exact ⟨_, WorldOk.init⟩
  | act _ a ha ih =>
    obtain ⟨h, ok⟩ := ih
    exact ok.act ha

/-- In every world a run can reach, any two voters agree on every index both deliver, each
process life delivers increasing indices and skips only what a frontier covers, and every message
is handled without a conflict at a committed entry. -/
theorem state_machine_safety {w : World Id} (hw : Reachable cfg w) :
    (∀ i j, ∀ d ∈ w.handed i, ∀ e ∈ w.handed j, d.index = e.index → d = e) ∧
    (∀ i, LifeOk (w.life i)) ∧
    ∀ i r env, w.peer i = .up r → env ∈ w.sent → ∃ r', r.enter.step env = .ok r' := by
  obtain ⟨h, ok⟩ := hw.worldOk
  refine ⟨fun i j d hd e he => (ok.handed i d hd).agree ok.ledger.toSound (ok.handed j e he),
    ok.life, fun i r env hp henv => ?_⟩
  have u : PeerOk cfg h i (w.life i) (.up r) := hp ▸ ok.peer i
  obtain ⟨full, hn⟩ := u.node
  obtain ⟨full', R⟩ := UpOk.running u ok.ledger hn.me
  obtain ⟨r', _, _, hstep, _⟩ := R.step (ok.sent env henv)
  exact ⟨r', hstep⟩

/-- Run a list of actions. -/
def World.runAll (cfg : Config Id) (w : World Id) (as : List (Action Id)) : Option (World Id) :=
  as.foldlM (fun w a => w.act cfg a) w

lemma Reachable.runAll {w w' : World Id} (hw : Reachable cfg w) (as : List (Action Id))
    (h : w.runAll cfg as = some w') : Reachable cfg w' := by
  induction as generalizing w with
  | nil =>
    cases h
    exact hw
  | cons a as ih =>
    rw [World.runAll, List.foldlM_cons] at h
    obtain ⟨w₁, h₁, h₂⟩ := Option.bind_eq_some_iff.mp h
    exact ih (hw.act a h₁) h₂

/-- Two voters elect the first, which commits its term no-op and replicates the commit. -/
def electionRun : List (Action ℕ) :=
  let deliver (i from_ : ℕ) (msg : Message) : Action ℕ := .call i (.step ⟨from_, i, msg⟩)
  let noop : Entry := ⟨1, 1, []⟩
  [.restart 0 fun _ => 0, .restart 1 fun _ => 0, .call 0 .tick, .drain 0,
    deliver 1 0 (.requestVote 1 0 0), .drain 1, deliver 0 1 (.requestVoteReply 1 true), .drain 0,
    deliver 1 0 (.appendEntries 1 0 0 [noop] 0 0), .drain 1,
    deliver 0 1 (.appendEntriesReply 1 true 1 0 0), .call 0 .takeCommitted, .call 0 .tick, .drain 0,
    deliver 1 0 (.appendEntries 1 1 1 [] 1 0), .crash 0, .call 1 .takeCommitted]

theorem state_machine_safety_electionRun : ∃ cfg : Config ℕ, ∃ w, Reachable cfg w ∧
    w.handed 0 = [⟨1, 1, []⟩] ∧ w.handed 1 = [⟨1, 1, []⟩] ∧
    (∀ d ∈ w.handed 0, ∀ e ∈ w.handed 1, d.index = e.index → d = e) := by
  let cfg : Config ℕ := ⟨[0, 1], 1, 2, 1, by decide⟩
  have hrun : (World.init.runAll cfg electionRun).map (fun w => (w.handed 0, w.handed 1)) =
      some ([⟨1, 1, []⟩], [⟨1, 1, []⟩]) := by decide
  obtain ⟨w, hw, hh⟩ := Option.map_eq_some_iff.mp hrun
  have hreach := Reachable.init.runAll electionRun hw
  simp only [Prod.mk.injEq] at hh
  exact ⟨cfg, w, hreach, hh.1, hh.2, (state_machine_safety hreach).1 0 1⟩

end CarolinaDB.Consensus
