import Mathlib

/-!
# Histories of elected terms and their logs

A replicated log led by one elected voter per term leaves a history: who led
each term, what the leader of each term wrote, who voted for whom with which
log, and how much of a leader's log each voter has acknowledged. `Sound`
collects what such a history keeps; `Sound.leader_complete` is what follows
for every chosen prefix, with no reference to messages or to node states.
-/
namespace CarolinaDB.ElectionHistory

section Lists
variable {β : Type*}

lemma take_eq_of_extends {l m : List β} (hp : l <+: m) {k : ℕ} (hk : k ≤ l.length) :
    m.take k = l.take k := by
  obtain ⟨r, rfl⟩ := hp
  exact List.take_append_of_le_length hk

lemma prefix_getElem? {l m : List β} (hp : l <+: m) {k : ℕ} {a : β} (h : l[k]? = some a) :
    m[k]? = some a := by
  obtain ⟨r, rfl⟩ := hp
  rw [List.getElem?_append_left (List.getElem?_eq_some_iff.mp h).1]
  exact h

lemma length_of_getElem? {l : List β} {k : ℕ} {a : β} (h : l[k]? = some a) : k < l.length :=
  (List.getElem?_eq_some_iff.mp h).1

/-- Two logs that both start with the same longer list agree below its end. -/
lemma take_eq_of_take_eq {l m : List β} {i k : ℕ} (h : l.take i = m.take i) (hk : k ≤ i) :
    l.take k = m.take k := by
  have := congrArg (List.take k) h
  simpa [List.take_take, Nat.min_eq_left hk] using this

lemma getElem?_eq_of_take_eq {l m : List β} {i k : ℕ} (h : l.take i = m.take i) (hk : k < i) :
    l[k]? = m[k]? := by
  have := congrArg (fun x => x[k]?) h
  simpa [List.getElem?_take, hk] using this

lemma take_prefix_iff {l m : List β} {k : ℕ} (hk : k ≤ l.length) :
    l.take k <+: m ↔ m.take k = l.take k ∧ k ≤ m.length := by
  constructor
  · intro h
    have hl := h.length_le
    rw [List.length_take, Nat.min_eq_left hk] at hl
    refine ⟨?_, hl⟩
    have ht := take_eq_of_extends h (k := k) (by simp [hk])
    simpa [List.take_take] using ht
  · rintro ⟨h, _⟩
    rw [← h]
    exact List.take_prefix k m

end Lists

/-- Log entries stamped with the term of the leader that created them. -/
class Stamped (α : Type) where
  term : α → ℕ

/-- Everything recorded so far. Rows are only added or extended. -/
structure History (Id α : Type) where
  led : ℕ → Option Id
  leaderLog : ℕ → List α
  acked : Id → ℕ → ℕ
  voted : Id → ℕ → Option Id
  stood : Id → ℕ → Option (List α)

variable {Id α : Type} [Stamped α]

open Stamped

def History.empty : History Id α where
  led _ := none
  leaderLog _ := []
  acked _ _ := 0
  voted _ _ := none
  stood _ _ := none

/-- Every prefix of `l` ending in an entry of term `t` is a prefix of the log of `t`'s leader. -/
def Attested (h : History Id α) (l : List α) : Prop :=
  ∀ k a, l[k]? = some a → l.take (k+1) <+: h.leaderLog (term a)

/-- The first `i` entries of the leader of `t` end in an entry the leader created itself. -/
def OwnAt (h : History Id α) (t i : ℕ) : Prop :=
  ∃ k a, i = k+1 ∧ (h.leaderLog t)[k]? = some a ∧ term a = t

/-- A later leader whose log does not start with the first `i` entries of term `s`. -/
def Overridden (h : History Id α) (s i u : ℕ) : Prop :=
  s < u ∧ (∃ c, h.led u = some c) ∧ ¬ (h.leaderLog s).take i <+: h.leaderLog u

/-- `l` starts with everything `v` acknowledged in terms below `t`, unless a
leader up to term `u` overrode it. -/
def Keeps (h : History Id α) (v : Id) (t u : ℕ) (l : List α) : Prop :=
  ∀ s i, s < t → i ≤ h.acked v s → OwnAt h s i →
    (h.leaderLog s).take i <+: l ∨ ∃ w ≤ u, Overridden h s i w

def Quorum (members Q : Finset Id) : Prop := Q ⊆ members ∧ members.card / 2 + 1 ≤ Q.card

lemma Quorum.inter [DecidableEq Id] {members P Q : Finset Id} (hP : Quorum members P)
    (hQ : Quorum members Q) : ∃ v, v ∈ P ∧ v ∈ Q := by
  have hc : members.card < P.card + Q.card := by
    have h₁ := hP.2
    have h₂ := hQ.2
    omega
  obtain ⟨v, hv⟩ := Finset.inter_nonempty_of_card_lt_card_add_card hP.1 hQ.1 hc
  exact ⟨v, Finset.mem_inter.mp hv⟩

/-- A quorum acknowledged the first `i` entries of term `s`, the last being of term `s`. -/
def Chosen (members : Finset Id) (h : History Id α) (s i : ℕ) : Prop :=
  OwnAt h s i ∧ ∃ Q, Quorum members Q ∧ ∀ v ∈ Q, i ≤ h.acked v s

/-- The first `k` entries of `l` are part of a prefix chosen in a term up to `t`. -/
def Committed (members : Finset Id) (h : History Id α) (t : ℕ) (l : List α) (k : ℕ) : Prop :=
  k = 0 ∨ ∃ s i, s ≤ t ∧ k ≤ i ∧ Chosen members h s i ∧ l.take k = (h.leaderLog s).take k

structure Sound (members : Finset Id) (h : History Id α) : Prop where
  attested : ∀ t, Attested h (h.leaderLog t)
  term_le : ∀ t, ∀ a ∈ h.leaderLog t, term a ≤ t
  led_of_log : ∀ t, h.leaderLog t ≠ [] → ∃ c, h.led t = some c
  acked_le : ∀ v t, h.acked v t ≤ (h.leaderLog t).length
  stood_of_vote : ∀ v t c, h.voted v t = some c → ∃ l, h.stood c t = some l
  vote_keeps : ∀ v t c l, h.voted v t = some c → h.stood c t = some l → Keeps h v t t l
  elected : ∀ t c, h.led t = some c → ∃ Q, Quorum members Q ∧
    ∀ v ∈ Q, h.voted v t = some c ∧ Keeps h v t (t-1) (h.leaderLog t)

/-- One voter's durable state against the history: its term, its vote in that term and its log. -/
structure VoterOk (h : History Id α) (v : Id) (t : ℕ) (vote : Option Id) (l : List α) : Prop where
  attested : Attested h l
  term_le : ∀ a ∈ l, term a ≤ t
  vote_eq : h.voted v t = vote
  voted_future : ∀ u, t < u → h.voted v u = none
  stood_future : ∀ u, t < u → h.stood v u = none
  acked_future : ∀ u, t < u → h.acked v u = 0
  led_past : ∀ u, h.led u = some v → u ≤ t
  keeps : Keeps h v (t+1) t l

section Facts

variable {members : Finset Id} {h : History Id α}

lemma OwnAt.le_length {t i : ℕ} (ho : OwnAt h t i) : i ≤ (h.leaderLog t).length := by
  obtain ⟨k, a, rfl, ha, _⟩ := ho
  exact length_of_getElem? ha

lemma OwnAt.pos {t i : ℕ} (ho : OwnAt h t i) : 0 < i := by
  obtain ⟨k, _, rfl, _⟩ := ho
  exact Nat.succ_pos k

/-- Log matching: two attested logs with entries of one term at one position agree up to it. -/
theorem Attested.matching {l m : List α} (hl : Attested h l) (hm : Attested h m) {k : ℕ}
    {a b : α} (ha : l[k]? = some a) (hb : m[k]? = some b) (hab : term a = term b) :
    l.take (k+1) = m.take (k+1) := by
  have h₁ := hl k a ha
  have h₂ := hm k b hb
  rw [hab] at h₁
  have e₁ := (take_prefix_iff (length_of_getElem? ha)).mp h₁
  have e₂ := (take_prefix_iff (length_of_getElem? hb)).mp h₂
  exact e₁.1.symm.trans e₂.1

lemma Attested.of_extends {l m : List α} (hm : Attested h m) (hp : l <+: m) : Attested h l := by
  intro k a ha
  have hk := length_of_getElem? ha
  rw [← take_eq_of_extends hp hk]
  exact hm k a (prefix_getElem? hp ha)

/-- An attested log is a prefix of the log of its last entry's leader. -/
lemma Attested.prefix_last {l : List α} (hl : Attested h l) {a : α} (ha : l.getLast? = some a) :
    l <+: h.leaderLog (term a) := by
  rw [List.getLast?_eq_getElem?] at ha
  have hk := length_of_getElem? ha
  have := hl _ a ha
  rwa [List.take_of_length_le (by omega)] at this

/-- Every chosen prefix is in the log of every later leader. The strong
induction is on the later term: a voter in both quorums either kept the
prefix, or was overridden by a leader in between, which the induction excludes. -/
theorem Sound.leader_complete [DecidableEq Id] (hs : Sound members h) {s i : ℕ}
    (hc : Chosen members h s i) {t : ℕ} (hst : s < t) {c : Id} (hl : h.led t = some c) :
    (h.leaderLog s).take i <+: h.leaderLog t := by
  obtain ⟨hown, P, hP, hacks⟩ := hc
  induction t using Nat.strong_induction_on generalizing c with
  | _ t ih =>
    obtain ⟨Q, hQ, hvotes⟩ := hs.elected t c hl
    obtain ⟨v, hvP, hvQ⟩ := hP.inter hQ
    rcases (hvotes v hvQ).2 s i hst (hacks v hvP) hown with hp | ⟨w, hw, hsw, ⟨d, hd⟩, hno⟩
    · exact hp
    · exact absurd (ih w (by omega) hsw hd) hno

/-- Two leaders of one term were elected by quorums that share a voter. -/
theorem Sound.led_of_quorum [DecidableEq Id] (hs : Sound members h) {t : ℕ} {c d : Id}
    (hl : h.led t = some c) {Q : Finset Id} (hQ : Quorum members Q)
    (hv : ∀ v ∈ Q, h.voted v t = some d) : c = d := by
  obtain ⟨P, hP, hvotes⟩ := hs.elected t c hl
  obtain ⟨v, hvP, hvQ⟩ := hP.inter hQ
  have h₁ := (hvotes v hvP).1
  rw [hv v hvQ] at h₁
  exact (Option.some.inj h₁).symm

lemma Chosen.take_eq [DecidableEq Id] (hs : Sound members h) {s i : ℕ} (hc : Chosen members h s i)
    {t : ℕ} (hst : s ≤ t) {c : Id} (hl : h.led t = some c) :
    (h.leaderLog t).take i = (h.leaderLog s).take i := by
  rcases Nat.eq_or_lt_of_le hst with rfl | hlt
  · rfl
  · exact ((take_prefix_iff hc.1.le_length).mp (hs.leader_complete hc hlt hl)).1

lemma Chosen.led (hs : Sound members h) {s i : ℕ} (hc : Chosen members h s i) :
    ∃ c, h.led s = some c := by
  apply hs.led_of_log
  intro he
  have := hc.1.le_length
  rw [he] at this
  have := hc.1.pos
  simp at *
  omega

/-- Chosen prefixes of any two terms agree as far as both reach. -/
theorem Chosen.agree [DecidableEq Id] (hs : Sound members h) {s i t j : ℕ}
    (hc : Chosen members h s i) (hd : Chosen members h t j) {k : ℕ} (hi : k ≤ i) (hj : k ≤ j) :
    (h.leaderLog s).take k = (h.leaderLog t).take k := by
  rcases Nat.le_total s t with hst | hts
  · obtain ⟨c, hl⟩ := hd.led hs
    exact (take_eq_of_take_eq (hc.take_eq hs hst hl) hi).symm
  · obtain ⟨c, hl⟩ := hc.led hs
    exact take_eq_of_take_eq (hd.take_eq hs hts hl) hj

lemma Committed.of_take {t : ℕ} {l m : List α} {k : ℕ} (hc : Committed members h t l k)
    (he : m.take k = l.take k) : Committed members h t m k := by
  rcases hc with rfl | ⟨s, i, hs, hk, hch, ht⟩
  · exact Or.inl rfl
  · exact Or.inr ⟨s, i, hs, hk, hch, he.trans ht⟩

lemma Committed.mono {t u : ℕ} {l : List α} {k : ℕ} (hc : Committed members h t l k) (htu : t ≤ u) :
    Committed members h u l k := by
  rcases hc with rfl | ⟨s, i, hs, hk, hch, ht⟩
  · exact Or.inl rfl
  · exact Or.inr ⟨s, i, hs.trans htu, hk, hch, ht⟩

lemma Committed.le {t : ℕ} {l : List α} {j k : ℕ} (hc : Committed members h t l k) (hjk : j ≤ k) :
    Committed members h t l j := by
  rcases hc with rfl | ⟨s, i, hs, hk, hch, ht⟩
  · exact Or.inl (by omega)
  · exact Or.inr ⟨s, i, hs, hjk.trans hk, hch, take_eq_of_take_eq ht hjk⟩

lemma Committed.le_length {t : ℕ} {l : List α} {k : ℕ} (hc : Committed members h t l k) :
    k ≤ l.length := by
  rcases hc with rfl | ⟨s, i, _, hk, hch, ht⟩
  · exact Nat.zero_le _
  · have hl := congrArg List.length ht
    have := hch.1.le_length
    simp only [List.length_take] at hl
    omega

/-- What is committed at a voter is in the log of the leader of any term from there on. -/
theorem Committed.take_leader [DecidableEq Id] (hs : Sound members h) {t : ℕ} {l : List α} {k : ℕ}
    (hc : Committed members h t l k) {c : Id} (hl : h.led t = some c) :
    (h.leaderLog t).take k = l.take k := by
  rcases hc with rfl | ⟨s, i, hst, hk, hch, ht⟩
  · simp
  · rw [ht]
    exact take_eq_of_take_eq (hch.take_eq hs hst hl) hk

/-- State-machine safety: two committed prefixes agree wherever both reach. -/
theorem Committed.agree [DecidableEq Id] (hs : Sound members h) {t u : ℕ} {l m : List α} {j k : ℕ}
    (hl : Committed members h t l j) (hm : Committed members h u m k) {n : ℕ} (hj : n < j)
    (hk : n < k) : l[n]? = m[n]? := by
  rcases hl with rfl | ⟨s, i, _, hi, hc, hlt⟩
  · omega
  rcases hm with rfl | ⟨s', i', _, hi', hc', hmt⟩
  · omega
  have he : (h.leaderLog s).take (n+1) = (h.leaderLog s').take (n+1) :=
    hc.agree hs hc' (by omega) (by omega)
  calc l[n]? = (h.leaderLog s)[n]? := getElem?_eq_of_take_eq hlt hj
    _ = (h.leaderLog s')[n]? := getElem?_eq_of_take_eq he (by omega)
    _ = m[n]? := (getElem?_eq_of_take_eq hmt hk).symm

lemma Sound.empty : Sound members (History.empty : History Id α) where
  attested t k a ha := by simp [History.empty] at ha
  term_le t a ha := by simp [History.empty] at ha
  led_of_log t hl := absurd rfl hl
  acked_le _ _ := le_rfl
  stood_of_vote v t c hv := by simp [History.empty] at hv
  vote_keeps v t c l hv := by simp [History.empty] at hv
  elected t c hl := by simp [History.empty] at hl

/-- The order candidates are compared by: last term first, then length. -/
def UpToDate (l m : List α) : Prop :=
  (m.getLast?.map term).getD 0 < (l.getLast?.map term).getD 0 ∨
    ((l.getLast?.map term).getD 0 = (m.getLast?.map term).getD 0 ∧ m.length ≤ l.length)

/-- An attested log at least as up to date as the voter's covers what the voter
keeps. With equal last terms both logs are prefixes of one leader's log; with a
later last term the question moves to that leader. -/
theorem Keeps.upToDate (hs : Sound members h) {v : Id} {t u : ℕ} {l m : List α} (hl : Attested h l)
    (hm : Attested h m) (hterm : ∀ a ∈ l, term a ≤ t) (hpos : ∀ a ∈ m, 0 < term a)
    (hk : Keeps h v u t m) (hup : UpToDate l m) : Keeps h v u t l := by
  intro s k hsu hks hown
  rcases hk s k hsu hks hown with hp | ho
  swap
  · exact Or.inr ho
  have hks' := hown.le_length
  have hkm := (take_prefix_iff hks').mp hp
  obtain ⟨n, a, rfl, ha, hat⟩ := hown
  have ham : m[n]? = some a := by
    rw [getElem?_eq_of_take_eq hkm.1 (Nat.lt_succ_self n)]
    exact ha
  obtain ⟨b, hb⟩ : ∃ b, m.getLast? = some b := by
    cases hb : m.getLast? with
    | some b => exact ⟨b, rfl⟩
    | none =>
      rw [List.getLast?_eq_none_iff] at hb
      rw [hb] at ham
      simp at ham
  have hmb := hm.prefix_last hb
  have hbpos := hpos b (List.mem_of_getLast? hb)
  have hsb : s ≤ term b := by
    have := hs.term_le (term b) a (List.mem_of_getElem? (prefix_getElem? hmb ham))
    omega
  -- an empty candidate log has last term zero and loses to any voter with entries
  obtain ⟨d, hd⟩ : ∃ d, l.getLast? = some d := by
    cases hd : l.getLast? with
    | some d => exact ⟨d, rfl⟩
    | none =>
      simp only [UpToDate, hd, hb, Option.map_none, Option.getD_none, Option.map_some,
        Option.getD_some] at hup
      omega
  have hld := hl.prefix_last hd
  have hup' : term b < term d ∨ (term d = term b ∧ m.length ≤ l.length) := by
    simpa [UpToDate, hd, hb] using hup
  rcases hup' with hlt | ⟨he, hlen⟩
  · by_cases hpd : (h.leaderLog s).take (n+1) <+: h.leaderLog (term d)
    · left
      have hkd := (take_prefix_iff hks').mp hpd
      have hnl : n+1 ≤ l.length := by
        by_contra hnl
        rw [List.getLast?_eq_getElem?] at hd
        have hdlen := length_of_getElem? hd
        have h₁ : (h.leaderLog (term d))[l.length - 1]? = some d := prefix_getElem? hld hd
        rw [getElem?_eq_of_take_eq hkd.1 (by omega)] at h₁
        have := hs.term_le s d (List.mem_of_getElem? h₁)
        omega
      rw [take_prefix_iff hks']
      exact ⟨(take_eq_of_extends hld hnl).symm.trans hkd.1, hnl⟩
    · right
      obtain ⟨e, he⟩ := hs.led_of_log (term d) (by
        intro hn
        rw [hn, List.prefix_nil] at hld
        rw [hld] at hd
        simp at hd)
      exact ⟨term d, hterm d (List.mem_of_getLast? hd), by omega, ⟨e, he⟩, hpd⟩
  · left
    rw [he] at hld
    have hnm := length_of_getElem? ham
    rw [take_prefix_iff hks']
    refine ⟨?_, by omega⟩
    rw [← hkm.1, ← take_eq_of_extends hmb hnm, ← take_eq_of_extends hld (by omega)]

end Facts

end CarolinaDB.ElectionHistory
