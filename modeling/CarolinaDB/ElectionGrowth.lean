import CarolinaDB.ElectionHistory

/-!
# How one voter extends the history

Each of the five operations below is what a single voter `i` can add: a vote, a
candidacy, an election, an entry of the term it leads, an acknowledgement. All
of them satisfy `Grows i`, which is all the other voters need to know; each one
keeps `Sound`.
-/
namespace CarolinaDB.ElectionHistory

open Stamped

variable {Id α : Type} [Stamped α] {members : Finset Id} {h h' : History Id α}

/-- `h'` adds to `h` only rows of voter `i`, and entries of its own term to logs it leads. -/
structure Grows (i : Id) (h h' : History Id α) : Prop where
  led : ∀ t c, h.led t = some c → h'.led t = some c
  led_new : ∀ t c, h'.led t = some c → h.led t = some c ∨ c = i
  log : ∀ t, h.leaderLog t <+: h'.leaderLog t
  log_other : ∀ t c, h.led t = some c → c ≠ i → h'.leaderLog t = h.leaderLog t
  log_term : ∀ t c, h.led t = some c → ∀ k a, (h.leaderLog t).length ≤ k →
    (h'.leaderLog t)[k]? = some a → term a = t
  voted : ∀ v t c, h.voted v t = some c → h'.voted v t = some c
  voted_other : ∀ v t, v ≠ i → h'.voted v t = h.voted v t
  stood : ∀ v t l, h.stood v t = some l → h'.stood v t = some l
  stood_other : ∀ v t, v ≠ i → h'.stood v t = h.stood v t
  acked : ∀ v t, h.acked v t ≤ h'.acked v t
  acked_other : ∀ v t, v ≠ i → h'.acked v t = h.acked v t

lemma Grows.refl (i : Id) (h : History Id α) : Grows i h h where
  led _ _ hl := hl
  led_new _ _ hl := Or.inl hl
  log _ := List.prefix_rfl
  log_other _ _ _ _ := rfl
  log_term t c _ k a hk ha := by
    have := length_of_getElem? ha
    omega
  voted _ _ _ hv := hv
  voted_other _ _ _ := rfl
  stood _ _ _ hv := hv
  stood_other _ _ _ := rfl
  acked _ _ := le_rfl
  acked_other _ _ _ := rfl

lemma Grows.trans {i : Id} {h'' : History Id α} (g : Grows i h h') (g' : Grows i h' h'') :
    Grows i h h'' where
  led t c hl := g'.led t c (g.led t c hl)
  led_new t c hl := by
    rcases g'.led_new t c hl with hl | rfl
    · exact g.led_new t c hl
    · exact Or.inr rfl
  log t := (g.log t).trans (g'.log t)
  log_other t c hl hc := (g'.log_other t c (g.led t c hl) hc).trans (g.log_other t c hl hc)
  log_term t c hl k a hk ha := by
    by_cases hk' : (h'.leaderLog t).length ≤ k
    · exact g'.log_term t c (g.led t c hl) k a hk' ha
    · obtain ⟨b, hb⟩ : ∃ b, (h'.leaderLog t)[k]? = some b :=
        ⟨_, List.getElem?_eq_getElem (by omega)⟩
      have he := prefix_getElem? (g'.log t) hb
      rw [ha, Option.some.injEq] at he
      subst he
      exact g.log_term t c hl k a hk hb
  voted v t c hv := g'.voted v t c (g.voted v t c hv)
  voted_other v t hv := (g'.voted_other v t hv).trans (g.voted_other v t hv)
  stood v t l hv := g'.stood v t l (g.stood v t l hv)
  stood_other v t hv := (g'.stood_other v t hv).trans (g.stood_other v t hv)
  acked v t := (g.acked v t).trans (g'.acked v t)
  acked_other v t hv := (g'.acked_other v t hv).trans (g.acked_other v t hv)

section Stable
variable {i : Id} (g : Grows i h h')
include g

lemma Grows.take_eq {t k : ℕ} (hk : k ≤ (h.leaderLog t).length) :
    (h'.leaderLog t).take k = (h.leaderLog t).take k :=
  take_eq_of_extends (g.log t) hk

lemma Grows.ownAt {t k : ℕ} (ho : OwnAt h t k) : OwnAt h' t k := by
  obtain ⟨n, a, rfl, ha, hat⟩ := ho
  exact ⟨n, a, rfl, prefix_getElem? (g.log t) ha, hat⟩

lemma Grows.ownAt_of_le {t k : ℕ} (hk : k ≤ (h.leaderLog t).length) (ho : OwnAt h' t k) :
    OwnAt h t k := by
  obtain ⟨n, a, rfl, ha, hat⟩ := ho
  refine ⟨n, a, rfl, ?_, hat⟩
  rwa [getElem?_eq_of_take_eq (g.take_eq hk) (Nat.lt_succ_self n)] at ha

lemma Grows.attested {l : List α} (hl : Attested h l) : Attested h' l :=
  fun k a ha => (hl k a ha).trans (g.log (term a))

/-- A later leader cannot acquire an entry of an earlier term, so what it lacks it never gets. -/
lemma Grows.overridden {s k u : ℕ} (hown : OwnAt h s k) (ho : Overridden h s k u) :
    Overridden h' s k u := by
  obtain ⟨hsu, ⟨c, hc⟩, hno⟩ := ho
  refine ⟨hsu, ⟨c, g.led u c hc⟩, fun hp => hno ?_⟩
  have hks := hown.le_length
  rw [g.take_eq hks] at hp
  have hk := (take_prefix_iff hks).mp hp
  by_cases hku : k ≤ (h.leaderLog u).length
  · rw [take_prefix_iff hks]
    exact ⟨(g.take_eq hku).symm.trans hk.1, hku⟩
  · obtain ⟨n, a, rfl, ha, hat⟩ := hown
    have hn : (h'.leaderLog u)[n]? = some a := by
      rw [getElem?_eq_of_take_eq hk.1 (Nat.lt_succ_self n)]
      exact ha
    have := g.log_term u c hc n a (by omega) hn
    omega

lemma Grows.keeps {v : Id} {t u : ℕ} {l : List α} (hle : ∀ t, h.acked v t ≤ (h.leaderLog t).length)
    (ha : ∀ s, s < t → h'.acked v s = h.acked v s) (hk : Keeps h v t u l) : Keeps h' v t u l := by
  intro s k hs hks hown
  rw [ha s hs] at hks
  have hlen := hks.trans (hle s)
  have hown' := g.ownAt_of_le hlen hown
  rcases hk s k hs hks hown' with hp | ⟨w, hw, ho⟩
  · exact Or.inl ((g.take_eq hlen).symm ▸ hp)
  · exact Or.inr ⟨w, hw, g.overridden hown' ho⟩

lemma Grows.chosen {s k : ℕ} (hc : Chosen members h s k) : Chosen members h' s k := by
  obtain ⟨ho, Q, hQ, hv⟩ := hc
  exact ⟨g.ownAt ho, Q, hQ, fun v hm => (hv v hm).trans (g.acked v s)⟩

lemma Grows.committed {t k : ℕ} {l : List α} (hc : Committed members h t l k) :
    Committed members h' t l k := by
  rcases hc with rfl | ⟨s, n, hs, hk, hch, ht⟩
  · exact Or.inl rfl
  · refine Or.inr ⟨s, n, hs, hk, g.chosen hch, ?_⟩
    rw [g.take_eq (hk.trans hch.1.le_length)]
    exact ht

/-- What another voter adds leaves a voter's own state in order. -/
theorem Grows.voterOk (hs : Sound members h) {v : Id} (hv : v ≠ i) {t : ℕ} {vote : Option Id}
    {l : List α} (ok : VoterOk h v t vote l) : VoterOk h' v t vote l where
  attested := g.attested ok.attested
  term_le := ok.term_le
  vote_eq := (g.voted_other v t hv).trans ok.vote_eq
  voted_future u hu := (g.voted_other v u hv).trans (ok.voted_future u hu)
  stood_future u hu := (g.stood_other v u hv).trans (ok.stood_future u hu)
  acked_future u hu := (g.acked_other v u hv).trans (ok.acked_future u hu)
  led_past u hu := by
    rcases g.led_new u v hu with hl | rfl
    · exact ok.led_past u hl
    · exact absurd rfl hv
  keeps := g.keeps (hs.acked_le v) (fun s _ => g.acked_other v s hv) ok.keeps

end Stable

section Term

/-- Moving to a later term leaves the log and forgets the vote. -/
theorem VoterOk.advance {v : Id} {t u : ℕ} {vote : Option Id} {l : List α}
    (ok : VoterOk h v t vote l) (htu : t < u) : VoterOk h v u none l where
  attested := ok.attested
  term_le a ha := (ok.term_le a ha).trans htu.le
  vote_eq := ok.voted_future u htu
  voted_future w hw := ok.voted_future w (htu.trans hw)
  stood_future w hw := ok.stood_future w (htu.trans hw)
  acked_future w hw := ok.acked_future w (htu.trans hw)
  led_past w hw := (ok.led_past w hw).trans htu.le
  keeps := by
    intro s k hs hk hown
    by_cases hst : s < t+1
    · rcases ok.keeps s k hst hk hown with hp | ⟨w, hw, ho⟩
      · exact Or.inl hp
      · exact Or.inr ⟨w, hw.trans htu.le, ho⟩
    · have := ok.acked_future s (by omega)
      have := hown.pos
      omega

end Term

end CarolinaDB.ElectionHistory
