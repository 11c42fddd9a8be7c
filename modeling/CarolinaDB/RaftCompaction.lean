import CarolinaDB.RaftReads

/-!
# Log compaction and the followers it leaves behind

A voter compacts up to what every other voter has reported as applied. `Held`
follows the base of the log, the reports behind it and the next index of every
follower through each call; a reply that matches below the base, or a
compaction past a follower's next index, is what strands a follower.
-/
namespace CarolinaDB.Consensus

variable {Id : Type} [LinearOrder Id]

/-- A call keeps the base `b`, in memory and in every durable state it passes through, and the
reports `P`. When `serving`, no follower has fallen behind the base. -/
structure Held (serving : Prop) (P : Id → ℕ → Prop) (b : ℕ) (r : Raft Id) : Prop where
  base : r.snapshotIndex = b
  stored : r.storage.state.snapshotIndex = b
  trail : ∀ p ∈ r.storage.trail, p.snapshotIndex = b
  peers : ∀ v, P v ((r.peerApplied v).getD 0)
  behind : serving → r.followersBehindSnapshot = 0
  next : serving → r.role = .leader → ∀ v ∈ r.cfg.members, v ≠ r.me →
    b < (r.nextIndex v).getD (b+1)

namespace Held

variable {serving : Prop} {P : Id → ℕ → Prop} {b : ℕ} {r r' : Raft Id}

/-- A durable write that keeps the base. -/
lemma write (k : Held serving P b r) {p : Persistent Id} (hp : p.snapshotIndex = b) :
    (r.storage.write p).state.snapshotIndex = b ∧
      ∀ q ∈ (r.storage.write p).trail, q.snapshotIndex = b := by
  refine ⟨hp, fun q hq => ?_⟩
  rcases List.mem_cons.mp hq with rfl | hq
  · exact hp
  · exact k.trail q hq

lemma store (k : Held serving P b r) {storage : Storage Id} {log : List Entry}
    (hs : storage.state.snapshotIndex = b) (ht : ∀ q ∈ storage.trail, q.snapshotIndex = b) :
    Held serving P b { r with storage, log } :=
  ⟨k.base, hs, ht, k.peers, k.behind, k.next⟩

lemma becomeFollower (k : Held serving P b r) (t : ℕ) (l : Option Id) :
    Held serving P b (r.becomeFollower t l) := by
  unfold Raft.becomeFollower
  split
  · obtain ⟨hs, ht⟩ := k.write (p := { r.storage.state with term := t, votedFor := none }) k.stored
    exact ⟨k.base, hs, ht, k.peers, k.behind, fun _ hr => (by cases hr)⟩
  · exact ⟨k.base, k.stored, k.trail, k.peers, k.behind, fun _ hr => (by cases hr)⟩

lemma append (k : Held serving P b r) (es : List Entry) {log : List Entry} :
    Held serving P b { r with storage := r.storage.append es, log } := by
  induction es generalizing r with
  | nil => exact k.store k.stored k.trail
  | cons e es ih =>
    obtain ⟨hs, ht⟩ := k.write
      (p := { r.storage.state with entries := r.storage.state.entries ++ [e] }) k.stored
    have k₁ : Held serving P b { r with storage := r.storage.append [e] } := k.store hs ht
    exact ih k₁

lemma appendNew (k : Held serving P b r) {es : List Entry} (h : r.appendNew es = .ok r') :
    Held serving P b r' := by
  induction es with
  | nil =>
    cases h
    exact k
  | cons e es ih =>
    unfold Raft.appendNew at h
    split at h
    · exact ih h
    · split at h
      · split at h
        · exact ih h
        · split at h
          · cases h
          · cases h
            obtain ⟨hs, ht⟩ := k.write (p := { r.storage.state with
              entries := r.storage.state.entries.filter (·.index < e.index) }) k.stored
            exact (k.store hs ht).append (e :: es)
      · cases h
        exact k.append (e :: es)

/-- A follower whose next index lies above the base is sent entries, not counted. -/
lemma sendAppend (k : Held serving P b r) {m : Id} (hn : serving → b < (r.nextIndex m).getD (b+1))
    (rr : ℕ) : Held serving P b (r.sendAppend m rr) := by
  unfold Raft.sendAppend
  extract_lets next
  split
  · rename_i hle
    refine ⟨k.base, k.stored, k.trail, k.peers, fun g => ?_, k.next⟩
    have := hn g
    unfold next at hle
    rw [k.base] at hle
    omega
  · exact { k with }

lemma broadcastAppend (k : Held serving P b r) (hr : r.role = .leader) (rr : ℕ) :
    Held serving P b (r.broadcastAppend rr) := by
  have hfold : ∀ ms : List Id, (∀ m ∈ ms, m ∈ r.cfg.members) →
      ∀ q : Raft Id, Held serving P b q → q.role = .leader → q.cfg = r.cfg →
      Held serving P b (ms.foldl (fun r m => if m ≠ r.me then r.sendAppend m rr else r) q) := by
    intro ms
    induction ms with
    | nil => exact fun _ _ hq _ _ => hq
    | cons m ms ih =>
      intro hms q hq hrole hcfg
      rw [List.foldl_cons]
      have hrest : ∀ m ∈ ms, m ∈ r.cfg.members := fun m hm => hms m (List.mem_cons_of_mem _ hm)
      split
      · rename_i hme
        obtain ⟨out, n, -, heq⟩ := Raft.sendAppend_eq q m rr
        have hm : m ∈ q.cfg.members := by
          rw [hcfg]
          exact hms m List.mem_cons_self
        refine ih hrest _ (hq.sendAppend (fun g => hq.next g hrole m hm hme) rr) ?_ ?_
        · rw [heq]
          exact hrole
        · rw [heq]
          exact hcfg
      · exact ih hrest q hq hrole hcfg
  have k' := hfold r.cfg.members (fun m hm => hm) r k hr rfl
  exact { k' with }

lemma appendLocal (k : Held serving P b r) (data : List UInt8) :
    Held serving P b (r.appendLocal data).2 := by
  have k' : Held serving P b { r with
      storage := r.storage.append [⟨r.term, r.lastIndex + 1, data⟩]
      log := r.log ++ [⟨r.term, r.lastIndex + 1, data⟩] } := k.append _
  exact { k' with }

/-- A new leader starts every follower right after its own log. -/
lemma becomeLeader (k : Held serving P b r) (hb : r.snapshotIndex ≤ r.lastIndex) :
    Held serving P b r.becomeLeader := by
  rw [Raft.becomeLeader_eq]
  have kseat : Held serving P b r.seat := by
    refine ⟨k.base, k.stored, k.trail, k.peers, k.behind, fun _ _ v hv hme => ?_⟩
    have hv : v ∈ r.cfg.members := hv
    simp only [Raft.seat, Raft.foldl_update_of_mem _ _ hv, Option.getD_some]
    have := k.base
    omega
  have k₁ := kseat.appendLocal []
  have k₂ : Held serving P b { (r.seat.appendLocal []).2 with
      heartbeatElapsed := r.cfg.heartbeatTicks } :=
    { k₁ with }
  exact k₂.broadcastAppend rfl 0

lemma becomeCandidate (k : Held serving P b r) (hb : r.snapshotIndex ≤ r.lastIndex) :
    Held serving P b r.becomeCandidate := by
  unfold Raft.becomeCandidate
  extract_lets r₁ r₂ msg r₃
  obtain ⟨out, -, heq⟩ := Raft.requestVotes_eq r₂ r₂.term r₂.lastIndex r₂.lastTerm r₂.cfg.members
  have hr₃ : r₃ = { r₂ with outbox := r₂.outbox ++ out } := heq
  obtain ⟨hs, ht⟩ := k.write
    (p := { r.storage.state with term := r.term + 1, votedFor := some r.me }) k.stored
  have k₃ : Held serving P b r₃ := by
    rw [hr₃]
    exact ⟨k.base, hs, ht, k.peers, k.behind, fun _ hr => (by cases hr)⟩
  split
  · refine k₃.becomeLeader ?_
    rw [hr₃]
    exact hb
  · exact k₃

lemma tick (k : Held serving P b r) (hb : r.snapshotIndex ≤ r.lastIndex) :
    Held serving P b r.tick := by
  have hcand : Held serving P b (if r.electionTimeout ≤ r.electionElapsed + 1 then
        Raft.becomeCandidate { r with electionElapsed := r.electionElapsed + 1 }
      else { r with electionElapsed := r.electionElapsed + 1 }) := by
    have k₁ : Held serving P b { r with electionElapsed := r.electionElapsed + 1 } :=
      { k with }
    split
    · exact k₁.becomeCandidate hb
    · exact k₁
  unfold Raft.tick
  split
  · rename_i hr
    extract_lets q
    have kq : Held serving P b q := { k with }
    split
    · exact kq.broadcastAppend hr 0
    · exact kq
  · exact hcand
  · exact hcand

lemma propose (k : Held serving P b r) {data : List UInt8} {n : ℕ}
    (h : r.propose data = .ok (n, r')) : Held serving P b r' := by
  unfold Raft.propose at h
  split at h
  · cases h
  rename_i hr
  simp only [ne_eq, not_not] at hr
  split at h
  · cases h
  simp only [Except.ok.injEq, Prod.mk.injEq] at h
  rw [← h.2]
  exact (k.appendLocal data).broadcastAppend hr 0

lemma readBarrier (k : Held serving P b r) {n : ℕ} (h : r.readBarrier = .ok (n, r')) :
    Held serving P b r' := by
  unfold Raft.readBarrier at h
  split at h
  · cases h
  rename_i hr
  simp only [ne_eq, not_not] at hr
  split at h
  · cases h
  extract_lets round q at h
  simp only [Except.ok.injEq, Prod.mk.injEq] at h
  rw [← h.2]
  have kq : Held serving P b q := { k with }
  exact kq.broadcastAppend hr _

lemma send (k : Held serving P b r) (to_ : Id) (msg : Message) :
    Held serving P b (r.send to_ msg) :=
  { k with }

lemma stepRequestVote (k : Held serving P b r) (c : Id) (t li lt : ℕ) :
    Held serving P b (r.stepRequestVote c t li lt) := by
  unfold Raft.stepRequestVote
  extract_lets q upToDate grant q'
  have kq : Held serving P b q := by
    unfold q
    split
    · exact k.becomeFollower t none
    · exact k
  have kq' : Held serving P b q' := by
    unfold q'
    split
    · obtain ⟨hs, ht⟩ := kq.write
        (p := { q.storage.state with term := q.term, votedFor := some c }) kq.stored
      exact ⟨kq.base, hs, ht, kq.peers, kq.behind, kq.next⟩
    · exact kq
  exact kq'.send _ _

lemma stepRequestVoteReply (k : Held serving P b r) (hb : r.snapshotIndex ≤ r.lastIndex) (v : Id)
    (t : ℕ) (granted : Bool) : Held serving P b (r.stepRequestVoteReply v t granted) := by
  unfold Raft.stepRequestVoteReply
  split
  · exact k.becomeFollower t none
  split
  · extract_lets q
    have kq : Held serving P b q := { k with }
    split
    · exact kq.becomeLeader hb
    · exact kq
  · exact k

lemma stepAppendEntries (k : Held serving P b r) {c : Id} {t pi pt lc rr : ℕ} {es : List Entry}
    (h : r.stepAppendEntries c t pi pt es lc rr = .ok r') : Held serving P b r' := by
  unfold Raft.stepAppendEntries at h
  split at h
  · cases h
    exact k.send _ _
  extract_lets q hint lastNew at h
  have kq : Held serving P b q := by
    unfold q
    split
    · exact k.becomeFollower t (some c)
    · exact { k with }
  split at h
  · cases h
    exact kq.send _ _
  · simp only [bind, Except.bind] at h
    split at h
    · cases h
    rename_i q₁ hq₁
    have k₁ := kq.appendNew hq₁
    simp only [Except.ok.injEq] at h
    subst h
    refine Held.send ?_ _ _
    split
    · exact { k₁ with }
    · exact k₁

/-- A reply that a leader counts moves one next index; it has to stay above the base. -/
lemma stepAppendEntriesReply (k : Held serving P b r) {v : Id} {t m rr ap : ℕ} {success : Bool}
    (hP : P v (max ((r.peerApplied v).getD 0) ap))
    (hg : serving → r.role = .leader → t = r.term → b ≤ m) :
    Held serving P b (r.stepAppendEntriesReply v t success m rr ap) := by
  unfold Raft.stepAppendEntriesReply
  extract_lets q cur q₁ q₂ q₃ q₄ next
  have kq : Held serving P b q := by
    refine ⟨k.base, k.stored, k.trail, fun u => ?_, k.behind, k.next⟩
    by_cases hu : u = v
    · subst hu
      simpa [q] using hP
    · simpa [q, hu] using k.peers u
  split
  · exact kq.becomeFollower t none
  split
  · exact kq
  rename_i hcond
  simp only [ne_eq, not_or, not_not] at hcond
  obtain ⟨hr, ht⟩ := hcond
  have moved : ∀ {s : Raft Id} {n : ℕ}, Held serving P b s → m < n →
      Held serving P b { s with nextIndex := Function.update s.nextIndex v (some n) } := by
    intro s n ks hn
    refine ⟨ks.base, ks.stored, ks.trail, ks.peers, ks.behind, fun g hl u hu hne => ?_⟩
    by_cases huv : u = v
    · subst huv
      have := hg g hr ht
      simp only [Function.update_self, Option.getD_some]
      omega
    · simp only [Function.update_of_ne huv]
      exact ks.next g hl u hu hne
  split
  · have k₁ : Held serving P b q₁ := by
      unfold q₁
      split
      · exact { kq with }
      · exact kq
    have k₂ : Held serving P b q₂ := moved k₁ (Nat.lt_succ_self m)
    obtain ⟨n, heq, -⟩ := Raft.advanceCommit_eq q₂
    have h₃ : q₃ = { q₂ with commitIndex := n } := heq
    have k₃ : Held serving P b q₃ := by
      rw [h₃]
      exact { k₂ with }
    have k₄ : Held serving P b q₄ := by
      unfold q₄
      split
      · exact { k₃ with }
      · exact k₃
    have hnext : q₄.nextIndex v = some (m+1) := by
      unfold q₄
      rw [h₃]
      split <;> exact Function.update_self ..
    split
    · refine k₄.sendAppend (fun g => ?_) 0
      rw [hnext]
      exact Nat.lt_succ_of_le (hg g hr ht)
    · exact k₄
  · refine (moved kq (le_max_left (m+1) 1)).sendAppend (fun g => ?_) 0
    simp only [Function.update_self, Option.getD_some]
    exact (Nat.lt_succ_of_le (hg g hr ht)).trans_le (le_max_left (m+1) 1)

lemma step (k : Held serving P b r) (hb : r.snapshotIndex ≤ r.lastIndex) {env : Envelope Id}
    (hP : ∀ t s m rr ap, env.msg = .appendEntriesReply t s m rr ap →
      P env.from_ (max ((r.peerApplied env.from_).getD 0) ap))
    (hg : serving → r.role = .leader → ∀ s m rr ap,
      env.msg = .appendEntriesReply r.term s m rr ap → b ≤ m)
    (h : r.step env = .ok r') : Held serving P b r' := by
  obtain ⟨f, to_, msg⟩ := env
  unfold Raft.step at h
  split at h
  · cases h
    exact k
  rename_i hcond
  simp only [ne_eq, not_or, not_not] at hcond
  obtain ⟨rfl, -⟩ := hcond
  cases msg with
  | requestVote t li lt =>
    cases h
    exact k.stepRequestVote f t li lt
  | requestVoteReply t granted =>
    cases h
    exact k.stepRequestVoteReply hb f t granted
  | appendEntries t pi pt es lc rr => exact k.stepAppendEntries h
  | appendEntriesReply t s m rr ap =>
    cases h
    refine k.stepAppendEntriesReply (hP _ _ _ _ _ rfl) ?_
    rintro g hr rfl
    exact hg g hr _ _ _ _ rfl

lemma mono {Q : Id → ℕ → Prop} (k : Held serving P b r) (hPQ : ∀ v n, P v n → Q v n) :
    Held serving Q b r :=
  ⟨k.base, k.stored, k.trail, fun v => hPQ v _ (k.peers v), k.behind, k.next⟩

/-- Compaction stops at the reports of the other voters. Below every next index it strands
nobody. -/
lemma compact (k : Held serving P b r) (ht : r.storage.trail = []) (n : ℕ)
    (hg : serving → r.role = .leader → ∀ v ∈ r.cfg.members, v ≠ r.me →
      n < (r.nextIndex v).getD (b+1)) :
    ∃ b', Held serving P b' (r.compact n).2 ∧
      (b' = b ∨ ∀ v ∈ r.cfg.members, v ≠ r.me → b' ≤ (r.peerApplied v).getD 0) := by
  unfold Raft.compact
  extract_lets target term keep
  split
  · exact ⟨b, k, Or.inl rfl⟩
  split
  · exact ⟨b, k, Or.inl rfl⟩
  have hn : target ≤ n := (min_le_left _ _).trans (min_le_left _ _)
  have hh : target ≤ r.compactionHorizon := (min_le_left _ _).trans (min_le_right _ _)
  refine ⟨target, ⟨rfl, rfl, ?_, k.peers, k.behind, fun g hr v hv hme => ?_⟩, Or.inr ?_⟩
  · intro p hp
    simp only [Storage.compactTo, Storage.write, ht, List.mem_singleton] at hp
    rw [hp]
  · have := hg g hr v hv hme
    simp only
    cases hnext : r.nextIndex v with
    | none => exact Nat.lt_succ_self _
    | some m =>
      rw [hnext] at this
      exact hn.trans_lt this
  · intro v hv hme
    refine hh.trans ((min_le_left _ _).trans ?_)
    have hfold : ∀ (ms : List Id) (x : ℕ), v ∈ ms →
        ms.foldl (fun h m => min h ((r.peerApplied m).getD 0)) x ≤ (r.peerApplied v).getD 0 := by
      intro ms
      induction ms using List.reverseRecOn with
      | nil => simp
      | append_singleton ms m ih =>
        intro x hm
        rw [List.foldl_append, List.foldl_cons, List.foldl_nil]
        rcases List.mem_append.mp hm with hm | hm
        · exact (min_le_left _ _).trans (ih x hm)
        · rw [List.mem_singleton] at hm
          subst hm
          exact min_le_right _ _
    exact hfold _ _ (by simpa using ⟨hv, hme⟩)

/-- Between calls: the trail of the next call starts empty. -/
lemma enter (k : Held serving P b r) : Held serving P b r.enter :=
  ⟨k.base, k.stored, by simp [Raft.enter], k.peers, k.behind, k.next⟩

end Held

/-- Voter `v` has sent a report of at least `n` applied entries. -/
def Reported (w : World Id) (v : Id) (n : ℕ) : Prop :=
  n = 0 ∨ ∃ env ∈ w.sent, env.from_ = v ∧
    ∃ t s m rr ap, env.msg = .appendEntriesReply t s m rr ap ∧ n ≤ ap

lemma Reported.mono {w w' : World Id} (hs : ∀ env ∈ w.sent, env ∈ w'.sent) {v : Id} {n : ℕ}
    (h : Reported w v n) : Reported w' v n := by
  rcases h with rfl | ⟨env, he, hrest⟩
  · exact Or.inl rfl
  · exact Or.inr ⟨env, hs env he, hrest⟩

lemma Reported.max {w : World Id} {v : Id} {m n : ℕ} (hm : Reported w v m) (hn : Reported w v n) :
    Reported w v (max m n) := by
  rcases max_choice m n with h | h <;> rw [h] <;> assumption

lemma Reported.le {w : World Id} {v : Id} {m n : ℕ} (hn : Reported w v n) (h : m ≤ n) :
    Reported w v m := by
  rcases hn with rfl | ⟨env, he, hf, t, s, k, rr, ap, hmsg, hle⟩
  · exact Or.inl (Nat.le_zero.mp h)
  · exact Or.inr ⟨env, he, hf, t, s, k, rr, ap, hmsg, h.trans hle⟩

/-- The base of a voter's log, running or not. -/
def World.base (w : World Id) (i : Id) : ℕ :=
  match w.peer i with
  | .up r => r.snapshotIndex
  | .down p => p.snapshotIndex

/-- A leader counts no reply of its term that matches below its base, and compacts below the next
index of every follower only. -/
def Raft.Careful (r : Raft Id) : Call Id → Prop
  | .step ⟨_, _, .appendEntriesReply t _ m _ _⟩ =>
    r.role = .leader → t = r.term → r.snapshotIndex ≤ m
  | .compact n => r.role = .leader → ∀ v ∈ r.cfg.members, v ≠ r.me →
    n < (r.nextIndex v).getD (r.snapshotIndex + 1)
  | _ => True

def Action.Careful (w : World Id) : Action Id → Prop
  | .call i c =>
    match w.peer i with
    | .up r => r.Careful c
    | .down _ => True
  | _ => True

structure CompactOk (serving : Prop) (cfg : Config Id) (w : World Id) : Prop where
  up : ∀ i r, w.peer i = .up r → Held serving (Reported w) r.snapshotIndex r.enter
  base : ∀ i, ∀ v ∈ cfg.members, v ≠ i → Reported w v (w.base i)

namespace CompactOk

variable {serving : Prop} {cfg : Config Id} {h : Rows Id} {w w' : World Id}

lemma init : CompactOk serving cfg World.init where
  up i r hr := by cases hr
  base i v _ _ := Or.inl rfl

/-- What a call leaves: one base for memory and for every durable state on the way. -/
lemma run (ok : CompactOk serving cfg w) (wok : WorldOk cfg h w) {i : Id} {r r' : Raft Id}
    (hr : w.peer i = .up r) {c : Call Id} (hc : c.Deliverable w.sent) {evs : List LifeEvent}
    (hcare : serving → r.Careful c) (hrun : r.enter.run c = .ok (r', evs)) :
    ∃ b, Held serving (Reported w) b r' ∧ ∀ v ∈ cfg.members, v ≠ i → Reported w v b := by
  obtain ⟨full, hn⟩ := wok.nodeOk hr
  have k := ok.up i r hr
  have hold : ∀ v ∈ cfg.members, v ≠ i → Reported w v r.snapshotIndex := by
    have := ok.base i
    rwa [World.base, hr] at this
  have hb : r.enter.snapshotIndex ≤ r.enter.lastIndex := by
    have v : r.enter.Views full := hn.live.view
    rw [v.lastIndex]
    exact v.base_le
  cases c with
  | tick =>
    cases hrun
    exact ⟨_, k.tick hb, hold⟩
  | propose data =>
    obtain ⟨⟨n, q⟩, hq, ⟨⟩⟩ := CoreResult.map_eq_ok hrun
    exact ⟨_, k.propose hq, hold⟩
  | readBarrier =>
    obtain ⟨⟨n, q⟩, hq, ⟨⟩⟩ := CoreResult.map_eq_ok hrun
    exact ⟨_, k.readBarrier hq, hold⟩
  | step env =>
    obtain ⟨q, hq, ⟨⟩⟩ := CoreResult.map_eq_ok hrun
    refine ⟨_, k.step hb ?_ ?_ hq, hold⟩
    · intro t s m rr ap hmsg
      exact (k.peers env.from_).max (Or.inr ⟨env, hc, rfl, t, s, m, rr, ap, hmsg, le_rfl⟩)
    · rintro g hl s m rr ap hmsg
      obtain ⟨f, to_, msg⟩ := env
      cases hmsg
      exact hcare g hl rfl
  | setApplied n =>
    cases hrun
    exact ⟨_, { k with }, hold⟩
  | compact n =>
    cases hrun
    have hme : r.enter.me = i := hn.me
    have hcfg : r.enter.cfg = cfg := hn.cfg_eq
    obtain ⟨b, k', hb'⟩ := k.compact rfl n fun g hl => hcare g hl
    refine ⟨b, k', ?_⟩
    rcases hb' with rfl | hb'
    · exact hold
    · intro v hv hne
      rw [hme, hcfg] at hb'
      exact (k.peers v).le (hb' v hv hne)
  | takeCommitted =>
    cases hrun
    obtain ⟨d, hd⟩ := Raft.takeCommittedLoop_frame (r.enter.commitIndex - r.enter.lastDelivered) r.enter
    rw [Raft.takeCommitted, hd]
    exact ⟨_, { k with }, hold⟩
  | takeReadyReads =>
    cases hrun
    exact ⟨_, { k with }, hold⟩

/-- One voter changes and the wire only grows. -/
lemma change (ok : CompactOk serving cfg w) {i : Id} {p : Peer Id}
    (hs : ∀ env ∈ w.sent, env ∈ w'.sent) (hp : w'.peer = Function.update w.peer i p)
    (hup : ∀ r, p = .up r → Held serving (Reported w) r.snapshotIndex r.enter)
    (hbase : ∀ v ∈ cfg.members, v ≠ i → Reported w v (w'.base i)) : CompactOk serving cfg w' where
  up j r hj := by
    rw [hp] at hj
    by_cases hji : j = i
    · subst hji
      rw [Function.update_self] at hj
      exact (hup r hj).mono fun v n hv => hv.mono hs
    · rw [Function.update_of_ne hji] at hj
      exact (ok.up j r hj).mono fun v n hv => hv.mono hs
  base j v hv hvj := by
    by_cases hji : j = i
    · subst hji
      exact (hbase v hv hvj).mono hs
    · have : w'.base j = w.base j := by
        unfold World.base
        rw [hp, Function.update_of_ne hji]
      rw [this]
      exact (ok.base j v hv hvj).mono hs

theorem act (ok : CompactOk serving cfg w) (wok : WorldOk cfg h w) {a : Action Id}
    (hcare : serving → a.Careful w) (ha : w.act cfg a = some w') : CompactOk serving cfg w' := by
  have hself : ∀ {i : Id} {r : Raft Id}, w.peer i = .up r →
      ∀ v ∈ cfg.members, v ≠ i → Reported w v r.snapshotIndex := by
    intro i r hr
    have := ok.base i
    rwa [World.base, hr] at this
  cases a with
  | call i c =>
    simp only [World.act] at ha
    split at ha <;> try contradiction
    rename_i r hr
    split at ha <;> try contradiction
    rename_i hc
    split at ha <;> try contradiction
    rename_i r' evs hrun
    cases ha
    simp only [Action.Careful, hr] at hcare
    obtain ⟨b, k, hb⟩ := ok.run wok hr hc hcare hrun
    refine ok.change (fun env he => he) rfl (p := .up r') ?_ ?_
    · rintro q ⟨⟩
      rw [k.base]
      exact k.enter
    · have : World.base ((w.setPeer i (.up r')).record i evs) i = b := by
        simp [World.base, World.setPeer, World.record, k.base]
      rw [this]
      exact hb
  | kill i c n =>
    simp only [World.act] at ha
    split at ha <;> try contradiction
    rename_i r hr
    split at ha <;> try contradiction
    rename_i hc
    split at ha <;> try contradiction
    rename_i r' evs hrun
    rw [Option.map_eq_some_iff] at ha
    obtain ⟨p, hp, rfl⟩ := ha
    -- a call that is cut short strands nobody, so its base needs no care
    have ok₀ : CompactOk False cfg w :=
      ⟨fun j q hq => have k := ok.up j q hq
        ⟨k.base, k.stored, k.trail, k.peers, by simp, by simp⟩, ok.base⟩
    obtain ⟨b, k, hb⟩ := ok₀.run wok hr hc (by simp) hrun
    refine ok.change (fun env he => he) rfl (p := .down p) (fun q hq => by cases hq) ?_
    have : World.base (w.setPeer i (.down p)) i = b := by
      simp [World.base, World.setPeer, k.trail p (List.mem_of_getElem? hp)]
    rw [this]
    exact hb
  | crash i =>
    simp only [World.act] at ha
    split at ha <;> try contradiction
    rename_i r hr
    cases ha
    refine ok.change (fun env he => he) rfl (p := .down r.storage.state) (fun q hq => by cases hq) ?_
    have : World.base (w.setPeer i (.down r.storage.state)) i = r.snapshotIndex := by
      have : r.storage.state.snapshotIndex = r.snapshotIndex := (ok.up i r hr).stored
      simpa [World.base, World.setPeer] using this
    rw [this]
    exact hself hr
  | drain i =>
    simp only [World.act] at ha
    split at ha <;> try contradiction
    rename_i r hr
    cases ha
    refine ok.change (fun env he => List.mem_append_left _ he) rfl (p := .up r.takeOutbox.2) ?_ ?_
    · rintro q ⟨⟩
      have k := ok.up i r hr
      exact { k with }
    · simpa [World.base, World.setPeer, Raft.takeOutbox] using hself hr
  | restart i rng =>
    simp only [World.act] at ha
    split at ha <;> try contradiction
    rename_i p hp
    split at ha <;> try contradiction
    rename_i r hnew
    cases ha
    unfold Raft.new at hnew
    split at hnew
    swap
    · cases hnew
    cases hnew
    refine ok.change (fun env he => he) rfl (p := .up _) ?_ ?_
    · rintro q ⟨⟩
      exact ⟨rfl, rfl, by simp [Raft.enter], fun v => Or.inl rfl, fun _ => rfl, fun _ hr => (by cases hr)⟩
    · have := ok.base i
      rw [World.base, hp] at this
      simpa [World.base, World.setPeer, Raft.resetElectionTimeout] using this

end CompactOk

/-- The worlds reached by runs whose every action satisfies `A` in the world before it. -/
inductive RunOf (cfg : Config Id) (A : World Id → Action Id → Prop) : World Id → Prop
  | init : RunOf cfg A World.init
  | act {w w' : World Id} (hw : RunOf cfg A w) (a : Action Id) (hA : A w a)
      (h : w.act cfg a = some w') : RunOf cfg A w'

lemma RunOf.reachable {cfg : Config Id} {A : World Id → Action Id → Prop} {w : World Id}
    (hw : RunOf cfg A w) : Reachable cfg w := by
  induction hw with
  | init => exact .init
  | act _ a _ h ih => exact ih.act a h

lemma RunOf.compactOk {cfg : Config Id} {A : World Id → Action Id → Prop} {serving : Prop}
    (hA : serving → ∀ w a, A w a → a.Careful w) {w : World Id} (hw : RunOf cfg A w) :
    CompactOk serving cfg w := by
  induction hw with
  | init => exact .init
  | act hw a ha h ih =>
    obtain ⟨_, wok⟩ := hw.reachable.worldOk
    exact ih.act wok (fun g => hA g _ a ha) h

instance (r : Raft Id) : DecidablePred r.Careful := fun c => by
  unfold Raft.Careful
  split <;> infer_instance

instance (w : World Id) : DecidablePred (Action.Careful w) := fun a => by
  unfold Action.Careful
  split
  · split <;> infer_instance
  · infer_instance

/-- Run a list of actions that all satisfy `A`. -/
def World.runOf (cfg : Config Id) (A : World Id → Action Id → Prop) [∀ w, DecidablePred (A w)]
    (w : World Id) (as : List (Action Id)) : Option (World Id) :=
  as.foldlM (fun w a => if A w a then w.act cfg a else none) w

lemma RunOf.runOf {cfg : Config Id} {A : World Id → Action Id → Prop} [∀ w, DecidablePred (A w)]
    {w w' : World Id} (hw : RunOf cfg A w) {as : List (Action Id)}
    (h : w.runOf cfg A as = some w') : RunOf cfg A w' := by
  induction as generalizing w with
  | nil =>
    cases h
    exact hw
  | cons a as ih =>
    rw [World.runOf, List.foldlM_cons] at h
    obtain ⟨w₁, h₁, h₂⟩ := Option.bind_eq_some_iff.mp h
    split at h₁
    · rename_i hA
      exact ih (hw.act a hA h₁) h₂
    · cases h₁

/-- A voter reports as applied only what was handed out to it. -/
def Action.Applied (w : World Id) : Action Id → Prop
  | .call i (.setApplied n) => ∃ e ∈ w.handed i, e.index = n
  | _ => True

instance (w : World Id) : DecidablePred (Action.Applied w) := fun a => by
  unfold Action.Applied
  split <;> infer_instance

/-- Both voters apply two entries and the leader compacts them away. -/
def compactRun : List (Action ℕ) :=
  leaderRun ++
  [.call 0 (.propose [7]), .drain 0,
    .call 1 (.step ⟨0, 1, .appendEntries 1 1 1 [⟨1, 2, [7]⟩] 1 0⟩), .drain 1,
    .call 0 (.step ⟨1, 0, .appendEntriesReply 1 true 2 0 0⟩), .call 0 .tick, .drain 0,
    .call 1 (.step ⟨0, 1, .appendEntries 1 2 1 [] 2 0⟩), .call 1 .takeCommitted,
    .call 1 (.setApplied 2), .call 1 (.step ⟨0, 1, .appendEntries 1 2 1 [] 2 0⟩), .drain 1,
    .call 0 .takeCommitted, .call 0 (.setApplied 2),
    .call 0 (.step ⟨1, 0, .appendEntriesReply 1 true 2 0 2⟩), .call 0 (.compact 2)]

end CarolinaDB.Consensus
