import CarolinaDB.ElectionGrowth

/-!
# The operations of a voter on the history

For each operation: it only grows the history, it keeps `Sound`, and it moves
the voter's own `VoterOk` to its new term, vote and log.
-/
namespace CarolinaDB.ElectionHistory

open Stamped

variable {Id α : Type} [DecidableEq Id] [Stamped α] {members : Finset Id} {h : History Id α}

/-- One cell of a two-argument table. -/
def setCell {β : Type} (f : Id → ℕ → β) (v : Id) (t : ℕ) (x : β) : Id → ℕ → β :=
  fun w u => if w = v ∧ u = t then x else f w u

@[simp] lemma setCell_self {β : Type} (f : Id → ℕ → β) (v : Id) (t : ℕ) (x : β) :
    setCell f v t x v t = x := by
  simp [setCell]

lemma setCell_of_ne {β : Type} (f : Id → ℕ → β) {v w : Id} {t u : ℕ} (x : β)
    (hn : ¬ (w = v ∧ u = t)) : setCell f v t x w u = f w u := by
  simp [setCell, hn]

def History.vote (h : History Id α) (v : Id) (t : ℕ) (c : Id) : History Id α :=
  { h with voted := setCell h.voted v t (some c) }

def History.stand (h : History Id α) (c : Id) (t : ℕ) (l : List α) : History Id α :=
  { h with
    voted := setCell h.voted c t (some c)
    stood := setCell h.stood c t (some l) }

def History.elect (h : History Id α) (c : Id) (t : ℕ) (l : List α) : History Id α :=
  { h with
    led := Function.update h.led t (some c)
    leaderLog := Function.update h.leaderLog t l }

def History.append (h : History Id α) (t : ℕ) (a : α) : History Id α :=
  { h with leaderLog := Function.update h.leaderLog t (h.leaderLog t ++ [a]) }

def History.ack (h : History Id α) (v : Id) (t m : ℕ) : History Id α :=
  { h with acked := setCell h.acked v t (max (h.acked v t) m) }

section Vote
variable {v c : Id} {t : ℕ}

lemma grows_vote (hv : h.voted v t = none ∨ h.voted v t = some c) :
    Grows v h (h.vote v t c) where
  __ := Grows.refl v h
  voted w u d hw := by
    by_cases he : w = v ∧ u = t
    · obtain ⟨rfl, rfl⟩ := he
      rcases hv with hv | hv
      · rw [hv] at hw
        exact absurd hw (by simp)
      · rw [hw] at hv
        simp [History.vote, hv]
    · simpa [History.vote, setCell_of_ne _ _ he] using hw
  voted_other w u hw := setCell_of_ne _ _ (fun he => hw he.1)

/-- A vote is sound when the candidate's log covers what the voter acknowledged. -/
theorem Sound.vote (hs : Sound members h) (hv : h.voted v t = none ∨ h.voted v t = some c)
    {l : List α} (hst : h.stood c t = some l) (hk : Keeps h v t t l) :
    Sound members (h.vote v t c) where
  __ := hs
  stood_of_vote w u d hw := by
    by_cases he : w = v ∧ u = t
    · obtain ⟨rfl, rfl⟩ := he
      simp only [History.vote, setCell_self, Option.some.injEq] at hw
      exact ⟨l, hw ▸ hst⟩
    · simp only [History.vote, setCell_of_ne _ _ he] at hw
      exact hs.stood_of_vote w u d hw
  vote_keeps w u d m hw hm := by
    by_cases he : w = v ∧ u = t
    · obtain ⟨rfl, rfl⟩ := he
      simp only [History.vote, setCell_self, Option.some.injEq] at hw
      subst hw
      have hml : m = l := by
        change h.stood c u = some m at hm
        rw [hst] at hm
        exact (Option.some.inj hm).symm
      rw [hml]
      exact hk
    · simp only [History.vote, setCell_of_ne _ _ he] at hw
      exact hs.vote_keeps w u d m hw hm
  elected u d hl := by
    obtain ⟨Q, hQ, hq⟩ := hs.elected u d hl
    exact ⟨Q, hQ, fun w hw => ⟨(grows_vote hv).voted w u d (hq w hw).1, (hq w hw).2⟩⟩

lemma VoterOk.vote {vote : Option Id} {l : List α} (ok : VoterOk h v t vote l) :
    VoterOk (h.vote v t c) v t (some c) l where
  __ := ok
  vote_eq := by simp [History.vote]
  voted_future u hu :=
    (setCell_of_ne _ _ (by rintro ⟨_, rfl⟩; omega)).trans (ok.voted_future u hu)

end Vote

section Stand
variable {c : Id} {t : ℕ} {l : List α}

lemma grows_stand (hv : h.voted c t = none) (hst : h.stood c t = none) :
    Grows c h (h.stand c t l) where
  __ := Grows.refl c h
  voted w u d hw := (setCell_of_ne _ _ (by rintro ⟨rfl, rfl⟩; simp [hv] at hw)).trans hw
  voted_other w u hw := setCell_of_ne _ _ (fun he => hw he.1)
  stood w u m hw := (setCell_of_ne _ _ (by rintro ⟨rfl, rfl⟩; simp [hst] at hw)).trans hw
  stood_other w u hw := setCell_of_ne _ _ (fun he => hw he.1)

/-- Nobody can have voted for a candidate that had not stood, so the only vote
to justify is the candidate's own. -/
theorem Sound.stand (hs : Sound members h) (hv : h.voted c t = none) (hst : h.stood c t = none)
    (hk : Keeps h c t t l) :
    Sound members (h.stand c t l) where
  __ := hs
  stood_of_vote w u d hw := by
    by_cases hd : d = c ∧ u = t
    · exact ⟨l, by simp [History.stand, hd.1, hd.2]⟩
    · have hne : ¬ (w = c ∧ u = t) := by
        rintro ⟨rfl, rfl⟩
        simp only [History.stand, setCell_self, Option.some.injEq] at hw
        exact hd ⟨hw.symm, rfl⟩
      simp only [History.stand, setCell_of_ne _ _ hne] at hw
      obtain ⟨m, hm⟩ := hs.stood_of_vote w u d hw
      exact ⟨m, (setCell_of_ne _ _ hd).trans hm⟩
  vote_keeps w u d m hw hm := by
    by_cases hd : d = c ∧ u = t
    · obtain ⟨rfl, rfl⟩ := hd
      simp only [History.stand, setCell_self, Option.some.injEq] at hm
      subst hm
      by_cases hw' : w = d
      · subst hw'
        exact hk
      · simp only [History.stand, setCell_of_ne _ _ (fun he => hw' he.1)] at hw
        obtain ⟨m, hm⟩ := hs.stood_of_vote w u d hw
        simp [hst] at hm
    · have hne : ¬ (w = c ∧ u = t) := by
        rintro ⟨rfl, rfl⟩
        simp only [History.stand, setCell_self, Option.some.injEq] at hw
        exact hd ⟨hw.symm, rfl⟩
      simp only [History.stand, setCell_of_ne _ _ hne] at hw
      simp only [History.stand, setCell_of_ne _ _ hd] at hm
      exact hs.vote_keeps w u d m hw hm
  elected u d hl := by
    obtain ⟨Q, hQ, hq⟩ := hs.elected u d hl
    exact ⟨Q, hQ, fun w hw => ⟨(grows_stand hv hst).voted w u d (hq w hw).1, (hq w hw).2⟩⟩

lemma VoterOk.stand {s : ℕ} {vote : Option Id} (ok : VoterOk h c s vote l) (hst : s < t) :
    VoterOk (h.stand c t l) c t (some c) l where
  attested := ok.attested
  term_le a ha := (ok.term_le a ha).trans hst.le
  vote_eq := by simp [History.stand]
  voted_future u hu :=
    (setCell_of_ne _ _ (by rintro ⟨_, rfl⟩; omega)).trans (ok.voted_future u (hst.trans hu))
  stood_future u hu :=
    (setCell_of_ne _ _ (by rintro ⟨_, rfl⟩; omega)).trans (ok.stood_future u (hst.trans hu))
  acked_future u hu := ok.acked_future u (hst.trans hu)
  led_past u hu := (ok.led_past u hu).trans hst.le
  keeps := (ok.advance hst).keeps

end Stand

section Elect
variable {c : Id} {t : ℕ} {l : List α}

lemma Sound.log_of_not_led (hs : Sound members h) (hl : h.led t = none) : h.leaderLog t = [] := by
  by_contra hne
  obtain ⟨d, hd⟩ := hs.led_of_log t hne
  simp [hl] at hd

lemma grows_elect (hs : Sound members h) (hl : h.led t = none) : Grows c h (h.elect c t l) where
  __ := Grows.refl c h
  led u d hd := by
    have hu : u ≠ t := by
      rintro rfl
      simp [hl] at hd
    simp [History.elect, hu, hd]
  led_new u d hd := by
    by_cases hu : u = t
    · subst hu
      simp only [History.elect, Function.update_self, Option.some.injEq] at hd
      exact Or.inr hd.symm
    · simp only [History.elect, Function.update_of_ne hu] at hd
      exact Or.inl hd
  log u := by
    by_cases hu : u = t
    · subst hu
      simp [hs.log_of_not_led hl]
    · simp [History.elect, Function.update_of_ne hu]
  log_other u d hd _ := by
    have hu : u ≠ t := by
      rintro rfl
      simp [hl] at hd
    simp [History.elect, Function.update_of_ne hu]
  log_term u d hd k a hk ha := by
    have hu : u ≠ t := by
      rintro rfl
      simp [hl] at hd
    simp only [History.elect, Function.update_of_ne hu] at ha
    exact (Grows.refl c h).log_term u d hd k a hk ha

/-- A candidate with a quorum of votes opens its term's log with its own. -/
theorem Sound.elect (hs : Sound members h) (hl : h.led t = none) (hst : h.stood c t = some l)
    (hc : Attested h l) (hterm : ∀ a ∈ l, term a ≤ t) {Q : Finset Id} (hQ : Quorum members Q)
    (hv : ∀ v ∈ Q, h.voted v t = some c) : Sound members (h.elect c t l) := by
  have g : Grows c h (h.elect c t l) := grows_elect hs hl
  have hkeeps : ∀ {v u w m}, Keeps h v u w m → Keeps (h.elect c t l) v u w m :=
    fun hk => g.keeps (hs.acked_le _) (fun _ _ => rfl) hk
  constructor
  · intro u
    apply g.attested
    by_cases hu : u = t
    · subst hu
      simpa [History.elect] using hc
    · simpa [History.elect, Function.update_of_ne hu] using hs.attested u
  · intro u a ha
    by_cases hu : u = t
    · subst hu
      simp only [History.elect, Function.update_self] at ha
      exact hterm a ha
    · simp only [History.elect, Function.update_of_ne hu] at ha
      exact hs.term_le u a ha
  · intro u hne
    by_cases hu : u = t
    · subst hu
      exact ⟨c, by simp [History.elect]⟩
    · simp only [History.elect, Function.update_of_ne hu] at hne ⊢
      exact hs.led_of_log u hne
  · intro v u
    exact (hs.acked_le v u).trans (g.log u).length_le
  · exact hs.stood_of_vote
  · intro v u d m hvd hm
    exact hkeeps (hs.vote_keeps v u d m hvd hm)
  · intro u d hd
    by_cases hu : u = t
    · subst hu
      simp only [History.elect, Function.update_self, Option.some.injEq] at hd
      subst hd
      refine ⟨Q, hQ, fun v hvQ => ⟨hv v hvQ, ?_⟩⟩
      simp only [History.elect, Function.update_self]
      apply hkeeps
      -- the term had no leader when the votes were cast, so nothing was overridden in it
      intro s k hs' hk hown
      rcases hs.vote_keeps v u c l (hv v hvQ) hst s k hs' hk hown with hp | ⟨w, hw, ho⟩
      · exact Or.inl hp
      · refine Or.inr ⟨w, ?_, ho⟩
        have hwu : w ≠ u := by
          rintro rfl
          obtain ⟨_, ⟨d, hd⟩, _⟩ := ho
          simp [hl] at hd
        omega
    · simp only [History.elect, Function.update_of_ne hu] at hd ⊢
      obtain ⟨P, hP, hp⟩ := hs.elected u d hd
      exact ⟨P, hP, fun v hvP => ⟨(hp v hvP).1, hkeeps (hp v hvP).2⟩⟩

lemma VoterOk.elect (hs : Sound members h) (hl : h.led t = none) {vote : Option Id}
    (ok : VoterOk h c t vote l) : VoterOk (h.elect c t l) c t vote l := by
  have g : Grows c h (h.elect c t l) := grows_elect hs hl
  refine ⟨g.attested ok.attested, ok.term_le, ok.vote_eq, ok.voted_future, ok.stood_future,
    ok.acked_future, ?_, g.keeps (hs.acked_le c) (fun _ _ => rfl) ok.keeps⟩
  intro u hu
  by_cases he : u = t
  · exact he.le
  · simp only [History.elect, Function.update_of_ne he] at hu
    exact ok.led_past u hu

end Elect

section Append
variable {c : Id} {t : ℕ} {a : α}

lemma append_log_self : (h.append t a).leaderLog t = h.leaderLog t ++ [a] := by
  simp [History.append]

lemma append_log_of_ne {u : ℕ} (hu : u ≠ t) : (h.append t a).leaderLog u = h.leaderLog u := by
  simp [History.append, Function.update_of_ne hu]

lemma grows_append (hl : h.led t = some c) (ha : term a = t) : Grows c h (h.append t a) where
  __ := Grows.refl c h
  log u := by
    by_cases hu : u = t
    · subst hu
      simp [append_log_self]
    · rw [append_log_of_ne hu]
  log_other u d hd hne := by
    apply append_log_of_ne
    rintro rfl
    rw [hl] at hd
    exact hne (Option.some.inj hd).symm
  log_term u d hd k b hk hb := by
    by_cases hu : u = t
    · subst hu
      rw [append_log_self] at hb
      have hlen := length_of_getElem? hb
      have hk' : k = (h.leaderLog u).length := by
        simp at hlen
        omega
      subst hk'
      simp at hb
      exact hb ▸ ha
    · rw [append_log_of_ne hu] at hb
      exact (Grows.refl c h).log_term u d hd k b hk hb

lemma Keeps.of_extends {v : Id} {u w : ℕ} {l m : List α} (hk : Keeps h v u w l) (hp : l <+: m) :
    Keeps h v u w m := by
  intro s k hs hks hown
  rcases hk s k hs hks hown with h₁ | h₁
  · exact Or.inl (h₁.trans hp)
  · exact Or.inr h₁

lemma attested_append_self (hs : Sound members h) (hl : h.led t = some c) (ha : term a = t) :
    Attested (h.append t a) ((h.append t a).leaderLog t) := by
  intro k b hb
  by_cases hk : k < (h.leaderLog t).length
  · have hb' : (h.leaderLog t)[k]? = some b := by
      rwa [append_log_self, List.getElem?_append_left hk] at hb
    rw [(grows_append hl ha).take_eq hk]
    exact (hs.attested t k b hb').trans ((grows_append hl ha).log _)
  · have := (grows_append hl ha).log_term t c hl k b (by omega) hb
    rw [this]
    exact List.take_prefix _ _

theorem Sound.append (hs : Sound members h) (hl : h.led t = some c) (ha : term a = t) :
    Sound members (h.append t a) := by
  have g := grows_append hl ha
  have hkeeps : ∀ {v u w m}, Keeps h v u w m → Keeps (h.append t a) v u w m :=
    fun hk => g.keeps (hs.acked_le _) (fun _ _ => rfl) hk
  constructor
  · intro u
    by_cases hu : u = t
    · subst hu
      exact attested_append_self hs hl ha
    · rw [append_log_of_ne hu]
      exact g.attested (hs.attested u)
  · intro u b hb
    by_cases hu : u = t
    · subst hu
      rw [append_log_self, List.mem_append, List.mem_singleton] at hb
      rcases hb with hb | rfl
      · exact hs.term_le u b hb
      · exact ha.le
    · rw [append_log_of_ne hu] at hb
      exact hs.term_le u b hb
  · intro u hne
    by_cases hu : u = t
    · subst hu
      exact ⟨c, hl⟩
    · rw [append_log_of_ne hu] at hne
      exact hs.led_of_log u hne
  · intro v u
    exact (hs.acked_le v u).trans (g.log u).length_le
  · exact hs.stood_of_vote
  · intro v u d m hvd hm
    exact hkeeps (hs.vote_keeps v u d m hvd hm)
  · intro u d hd
    obtain ⟨P, hP, hp⟩ := hs.elected u d hd
    exact ⟨P, hP, fun v hvP => ⟨(hp v hvP).1, (hkeeps (hp v hvP).2).of_extends (g.log u)⟩⟩

lemma VoterOk.append (hs : Sound members h) (hl : h.led t = some c) (ha : term a = t)
    {vote : Option Id} (ok : VoterOk h c t vote (h.leaderLog t)) :
    VoterOk (h.append t a) c t vote (h.leaderLog t ++ [a]) := by
  have g := grows_append hl ha
  refine ⟨?_, ?_, ok.vote_eq, ok.voted_future, ok.stood_future, ok.acked_future, ok.led_past, ?_⟩
  · rw [← append_log_self]
    exact attested_append_self hs hl ha
  · intro b hb
    rw [List.mem_append, List.mem_singleton] at hb
    rcases hb with hb | rfl
    · exact ok.term_le b hb
    · exact ha.le
  · have hk := g.keeps (hs.acked_le c) (fun _ _ => rfl) ok.keeps
    exact hk.of_extends (List.prefix_append _ _)

end Append

section Ack
variable {v : Id} {t m : ℕ}

lemma grows_ack : Grows v h (h.ack v t m) where
  __ := Grows.refl v h
  acked w u := by
    by_cases he : w = v ∧ u = t
    · obtain ⟨rfl, rfl⟩ := he
      simp [History.ack]
    · exact (setCell_of_ne _ _ he).ge
  acked_other w u hw := setCell_of_ne _ _ (fun he => hw he.1)

lemma le_acked_ack : m ≤ (h.ack v t m).acked v t := by
  simp [History.ack]

/-- An acknowledgement in the voter's current term touches no vote: those of
later terms are still to be cast. -/
theorem Sound.ack (hs : Sound members h) (hm : m ≤ (h.leaderLog t).length)
    (hfut : ∀ u, t < u → h.voted v u = none) : Sound members (h.ack v t m) := by
  have hkeeps : ∀ {w u x l d}, h.voted w u = some d → Keeps h w u x l →
      Keeps (h.ack v t m) w u x l := by
    intro w u x l d hw hk
    apply grows_ack.keeps (hs.acked_le w) _ hk
    intro s hsu
    apply setCell_of_ne
    rintro ⟨rfl, rfl⟩
    simp [hfut u hsu] at hw
  constructor
  · exact hs.attested
  · exact hs.term_le
  · exact hs.led_of_log
  · intro w u
    by_cases he : w = v ∧ u = t
    · obtain ⟨rfl, rfl⟩ := he
      simp only [History.ack, setCell_self]
      exact max_le (hs.acked_le w u) hm
    · exact (setCell_of_ne _ _ he).le.trans (hs.acked_le w u)
  · exact hs.stood_of_vote
  · intro w u d l hw hl
    exact hkeeps hw (hs.vote_keeps w u d l hw hl)
  · intro u d hd
    obtain ⟨P, hP, hp⟩ := hs.elected u d hd
    exact ⟨P, hP, fun w hw => ⟨(hp w hw).1, hkeeps (hp w hw).1 (hp w hw).2⟩⟩

lemma VoterOk.ack {vote : Option Id} {l : List α} (ok : VoterOk h v t vote l)
    (hp : (h.leaderLog t).take m <+: l) : VoterOk (h.ack v t m) v t vote l where
  __ := ok
  acked_future u hu :=
    (setCell_of_ne _ _ (by rintro ⟨_, rfl⟩; omega)).trans (ok.acked_future u hu)
  keeps := by
    intro s k hs hk hown
    by_cases he : s = t
    · subst he
      simp only [History.ack, setCell_self, le_max_iff] at hk
      rcases hk with hk | hk
      · exact ok.keeps s k hs hk hown
      · left
        have : (h.leaderLog s).take k = ((h.leaderLog s).take m).take k := by
          rw [List.take_take, Nat.min_eq_left hk]
        change (h.leaderLog s).take k <+: l
        rw [this]
        exact (List.take_prefix _ _).trans hp
    · simp only [History.ack, setCell_of_ne _ _ (fun h' => he h'.2)] at hk
      exact ok.keeps s k hs hk hown

end Ack

section Accept
variable {v : Id} {t : ℕ} {vote : Option Id} {l : List α}

/-- Cutting a log where it disagrees with the current leader loses only what that leader overrode. -/
theorem VoterOk.truncate (ok : VoterOk h v t vote l) {c : Id} (hl : h.led t = some c) {k : ℕ}
    {a b : α} (ha : l[k]? = some a) (hb : (h.leaderLog t)[k]? = some b) (hne : term a ≠ term b) :
    VoterOk h v t vote (l.take k) where
  __ := ok
  attested := ok.attested.of_extends (List.take_prefix _ _)
  term_le d hd := ok.term_le d (List.mem_of_mem_take hd)
  keeps := by
    intro s i hs hi hown
    rcases ok.keeps s i hs hi hown with hp | ho
    swap
    · exact Or.inr ho
    have hlen := hown.le_length
    have hpi := (take_prefix_iff hlen).mp hp
    by_cases hik : i ≤ k
    · left
      rw [take_prefix_iff hlen]
      refine ⟨?_, by rw [List.length_take]; omega⟩
      rw [List.take_take, Nat.min_eq_left hik]
      exact hpi.1
    · right
      have hsa : (h.leaderLog s)[k]? = some a := by
        rw [← getElem?_eq_of_take_eq hpi.1 (by omega)]
        exact ha
      have hno : ¬ (h.leaderLog s).take i <+: h.leaderLog t := by
        intro hq
        have hqi := (take_prefix_iff hlen).mp hq
        rw [getElem?_eq_of_take_eq hqi.1 (by omega), hsa, Option.some.injEq] at hb
        exact hne (congrArg term hb)
      have hst : s ≠ t := by
        rintro rfl
        exact hno (List.take_prefix _ _)
      exact ⟨t, le_rfl, by omega, ⟨c, hl⟩, hno⟩

/-- Extending a log along the current leader's. -/
theorem VoterOk.extend (hs : Sound members h) (ok : VoterOk h v t vote l) {m : List α}
    (hp : l <+: m) (hm : m <+: h.leaderLog t) : VoterOk h v t vote m where
  __ := ok
  attested := (hs.attested t).of_extends hm
  term_le a ha := hs.term_le t a (hm.subset ha)
  keeps := ok.keeps.of_extends hp

end Accept

end CarolinaDB.ElectionHistory
