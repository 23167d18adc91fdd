import DistributedLabs.TermLedger

set_option autoImplicit false

/-! Every action keeps the ledger valid and only lets it grow. -/
namespace DistributedLabs.TermLedger
open Classical

variable {V E : Type} {rank : E → ℕ} {Q : Quorums V} {g h : Ledger V E}

theorem put_self {β : Type} (f : V → ℕ → β) (v : V) (t : ℕ) (x : β) : put f v t x v t = x := by
  simp [put]

theorem put_of_ne {β : Type} (f : V → ℕ → β) {v w : V} {t u : ℕ} (x : β) (hn : ¬ (w = v ∧ u = t)) :
    put f v t x w u = f w u := by
  simp [put, hn]

theorem prefix_adopt (l m : List E) : m <+: adopt l m := by
  unfold adopt
  split_ifs with hm
  · exact hm
  · exact List.prefix_refl _

/-- Prefixes of one leader's log that the node holds survive a message of that leader. -/
theorem adopt_keeps {p l m d : List E} (hl : p <+: l) (hp : p <+: d) (hm : m <+: d) :
    p <+: adopt l m := by
  unfold adopt
  split_ifs with hk
  · exact hl
  · rcases List.prefix_or_prefix_of_prefix hp hm with hpm | hmp
    · exact hpm
    · exact absurd (hmp.trans hl) hk

theorem take_initial {l m : List E} (h : l <+: m) {k : ℕ} (hk : k ≤ l.length) :
    m.take k = l.take k := by
  obtain ⟨r, rfl⟩ := h
  exact List.take_append_of_le_length hk

/-- What a leader appends has its own term, so no list of lower terms is completed by it. -/
def Recedes (rank : E → ℕ) (g h : Ledger V E) : Prop :=
  ∀ u ld, g.lead u = some ld → ∃ ld', h.lead u = some ld' ∧
    ∀ p : List E, (∀ x ∈ p, rank x < u) → p <+: ld'.log → p <+: ld.log

theorem recedes_of_lead_eq (hl : h.lead = g.lead) : Recedes rank g h := by
  intro u ld hu
  exact ⟨ld, by rw [hl]; exact hu, fun _ _ hp => hp⟩

theorem Remembers.at (hv : Valid rank Q g) (hg : Grows g h) (hb : Recedes rank g h)
    {v : V} {b t k : ℕ} {l : List E} {ld : Leader V E} (hr : Remembers g v b l) (ht : t < b)
    (hl : h.lead t = some ld) (hk : k ≤ g.ack v t) : Carried h t b (ld.log.take k) l := by
  intro prem
  rcases Nat.eq_zero_or_pos k with rfl | hpos
  · simp
  obtain ⟨old, ho, hle⟩ := hv.ack_lead v t (by omega)
  obtain ⟨ld', hl', _, _, hp⟩ := hg.lead t old ho
  rw [hl] at hl'
  cases hl'
  rw [take_initial hp (by omega)] at prem ⊢
  apply hr t old k ht ho hk
  intro u lu htu hub hlu
  obtain ⟨lu', hlu', back⟩ := hb u lu hlu
  apply back _ ?_ (prem u lu' htu hub hlu')
  intro x hx
  have hx' := hv.lead_rank t old ho x (List.mem_of_mem_take hx)
  omega

theorem Remembers.step (hv : Valid rank Q g) (hg : Grows g h) (hb : Recedes rank g h)
    {v : V} {b : ℕ} {l : List E} (ha : ∀ t < b, h.ack v t = g.ack v t)
    (hr : Remembers g v b l) : Remembers h v b l := by
  intro t ld k ht hl hk
  rw [ha t ht] at hk
  exact hr.at hv hg hb ht hl hk

/-- A node that enters a higher term has acknowledged nothing there yet. -/
theorem Remembers.raise {v : V} {b b' : ℕ} {l : List E} (hr : Remembers g v b l) (hb : b ≤ b')
    (ha : ∀ t, b ≤ t → g.ack v t = 0) : Remembers g v b' l := by
  intro t ld k _ hl hk prem
  by_cases htb : t < b
  · exact hr t ld k htb hl hk fun u lu htu hub => prem u lu htu (by omega)
  · have hz := ha t (by omega)
    obtain rfl : k = 0 := by omega
    simp

theorem Remembers.lower {v : V} {b : ℕ} {l : List E} (hr : Remembers g v (b + 1) l)
    (hn : g.lead b = none) : Remembers g v b l := by
  intro t ld k ht hl hk prem
  apply hr t ld k (by omega) hl hk
  intro u lu htu hub hlu
  have hne : u ≠ b := by
    rintro rfl
    rw [hn] at hlu
    cases hlu
  exact prem u lu htu (by omega) hlu

section advance
variable {v : V} {t : ℕ}

theorem grows_advance (ht : g.term v ≤ t) : Grows g (g.advance v t) := by
  refine ⟨(Grows.refl g).lead, fun _ _ => le_refl _, fun _ _ _ hx => hx, ?_⟩
  intro w
  by_cases hw : w = v
  · subst hw; simpa [Ledger.advance] using ht
  · simp [Ledger.advance, hw]

theorem valid_advance (hv : Valid rank Q g) (ht : g.term v ≤ t) : Valid rank Q (g.advance v t) := by
  have hg := grows_advance ht
  have hb : Recedes rank g (g.advance v t) := recedes_of_lead_eq rfl
  refine { hv with log_rank := ?_, lead_term := ?_, lead_log := ?_, ack_term := ?_, vote_term := ?_,
                   kept := ?_, backed_log := ?_, backed_lead := ?_, backed_vote := ?_ }
  · exact fun w => (hv.backed_log w).mono hg
  · exact fun u ld hl => (hv.backed_lead u ld hl).mono hg
  · exact fun w u x hx => (hv.backed_vote w u x hx).mono hg
  · exact fun w e he => (hv.log_rank w e he).trans (hg.term w)
  · exact fun u ld hl => (hv.lead_term u ld hl).trans (hg.term _)
  · intro u ld hl hu
    have hle := hv.lead_term u ld hl
    have hge := hg.term ld.who
    exact hv.lead_log u ld hl (by omega)
  · exact fun w u hw => (hv.ack_term w u hw).trans (hg.term w)
  · exact fun w u x hx => (hv.vote_term w u x hx).trans (hg.term w)
  · intro w
    have old := (hv.kept w).step hv hg hb (fun _ _ => rfl)
    apply old.raise (by have := hg.term w; omega)
    intro u hu
    by_contra hne
    have := hv.ack_term w u (Nat.pos_of_ne_zero hne)
    omega

end advance

section castVote
variable {v c : V} {t : ℕ}

theorem castVote_none (hn : g.vote v t = none) :
    g.castVote v t c = { g with vote := put g.vote v t (some (c, g.log v)) } := by
  simp [Ledger.castVote, hn]

theorem castVote_some {x : V × List E} (hx : g.vote v t = some x) : g.castVote v t c = g := by
  simp [Ledger.castVote, hx]

theorem grows_castVote : Grows g (g.castVote v t c) := by
  cases hn : g.vote v t with
  | some x => rw [castVote_some hn]; exact Grows.refl g
  | none =>
    rw [castVote_none hn]
    refine ⟨(Grows.refl g).lead, fun _ _ => le_refl _, ?_, fun _ => le_refl _⟩
    intro w u x hx
    have hne : ¬ (w = v ∧ u = t) := by
      rintro ⟨rfl, rfl⟩
      rw [hn] at hx
      cases hx
    simpa only [put_of_ne _ _ hne] using hx

theorem valid_castVote (hv : Valid rank Q g) (ht : g.term v = t) :
    Valid rank Q (g.castVote v t c) := by
  have hg : Grows g (g.castVote v t c) := grows_castVote
  cases hn : g.vote v t with
  | some x => rw [castVote_some hn]; exact hv
  | none =>
    rw [castVote_none hn] at hg ⊢
    -- a vote on record is an old one or the one just cast
    have split : ∀ w u x, put g.vote v t (some (c, g.log v)) w u = some x →
        g.vote w u = some x ∨ (w = v ∧ u = t ∧ x = (c, g.log v)) := by
      intro w u x hx
      by_cases hw : w = v ∧ u = t
      · obtain ⟨rfl, rfl⟩ := hw
        rw [put_self] at hx
        exact .inr ⟨rfl, rfl, (Option.some.inj hx).symm⟩
      · exact .inl (by rwa [put_of_ne _ _ hw] at hx)
    refine { hv with backed_vote := ?_, vote_term := ?_, cast := ?_, won := ?_ }
    · intro w u x hx
      rcases split w u x hx with hx | ⟨rfl, rfl, rfl⟩
      · exact hv.backed_vote w u x hx
      · exact hv.backed_log w
    · intro w u x hx
      rcases split w u x hx with hx | ⟨rfl, rfl, rfl⟩
      · exact hv.vote_term w u x hx
      · exact ht.ge
    · intro w u x hx hl
      rcases split w u x hx with hx | ⟨rfl, rfl, rfl⟩
      · exact hv.cast w u x hx hl
      · have hk := hv.kept w
        rw [ht] at hk
        exact hk.lower hl
    · intro u ld hl
      obtain ⟨A, hA, hall⟩ := hv.won u ld hl
      refine ⟨A, hA, ?_⟩
      intro w hw
      obtain ⟨l, hx, hup, hr⟩ := hall w hw
      exact ⟨l, hg.vote w u _ hx, hup, hr⟩

end castVote

section elect
variable {c : V} {t : ℕ}

theorem ack_eq_zero_of_no_lead (hv : Valid rank Q g) (hl : g.lead t = none) (v : V) :
    g.ack v t = 0 := by
  by_contra hne
  obtain ⟨ld, hd, _⟩ := hv.ack_lead v t (Nat.pos_of_ne_zero hne)
  rw [hl] at hd
  cases hd

theorem elect_lead_of_ne {u : ℕ} (hu : u ≠ t) : (g.elect c t).lead u = g.lead u := by
  simp [Ledger.elect, hu]

theorem elect_lead_self : (g.elect c t).lead t = some ⟨c, g.log c, g.log c⟩ := by
  simp [Ledger.elect]

theorem grows_elect (hv : Valid rank Q g) (hl : g.lead t = none) : Grows g (g.elect c t) := by
  refine ⟨?_, ?_, fun _ _ _ hx => hx, fun _ => le_refl _⟩
  · intro u ld hu
    have hne : u ≠ t := by
      rintro rfl
      rw [hl] at hu
      cases hu
    exact ⟨ld, by rw [elect_lead_of_ne hne]; exact hu, rfl, rfl, List.prefix_refl _⟩
  · intro w u
    by_cases hw : w = c ∧ u = t
    · obtain ⟨rfl, rfl⟩ := hw
      rw [ack_eq_zero_of_no_lead hv hl]
      exact Nat.zero_le _
    · exact (put_of_ne g.ack _ hw).ge

theorem recedes_elect (hl : g.lead t = none) : Recedes rank g (g.elect c t) := by
  intro u ld hu
  have hne : u ≠ t := by
    rintro rfl
    rw [hl] at hu
    cases hu
  exact ⟨ld, by rw [elect_lead_of_ne hne]; exact hu, fun _ _ hp => hp⟩

/-- An entry of the new term would name a leader of it. -/
theorem log_rank_lt (hv : Valid rank Q g) (ht : g.term c = t) (hl : g.lead t = none) :
    ∀ e ∈ g.log c, rank e < t := by
  intro e he
  have hle := hv.log_rank c e he
  obtain ⟨k, hk⟩ := List.mem_iff_getElem?.mp he
  obtain ⟨ld, hd, _⟩ := hv.backed_log c k e hk
  have hne : rank e ≠ t := by
    intro heq
    rw [heq, hl] at hd
    cases hd
  omega

theorem valid_elect (hv : Valid rank Q g) (A : Finset V) (ht : g.term c = t)
    (hl : g.lead t = none) (hA : Q.votes A)
    (hall : ∀ v ∈ A, ∃ l, g.vote v t = some (c, l) ∧ UpToDate rank (g.log c) l) :
    Valid rank Q (g.elect c t) := by
  have hg : Grows g (g.elect c t) := grows_elect hv hl
  have hb : Recedes rank g (g.elect c t) := recedes_elect hl
  have split : ∀ u ld, (g.elect c t).lead u = some ld →
      (u ≠ t ∧ g.lead u = some ld) ∨ (u = t ∧ ld = ⟨c, g.log c, g.log c⟩) := by
    intro u ld hu
    by_cases hut : u = t
    · subst hut
      rw [elect_lead_self] at hu
      exact .inr ⟨rfl, (Option.some.inj hu).symm⟩
    · exact .inl ⟨hut, by rwa [elect_lead_of_ne hut] at hu⟩
  -- the new acknowledgement is the leader's own, and its earlier votes are of lower terms
  have old : ∀ w u x, g.vote w u = some x → ∀ r < u, (g.elect c t).ack w r = g.ack w r := by
    intro w u x hx r hr
    apply put_of_ne
    rintro ⟨rfl, rfl⟩
    have := hv.vote_term w u x hx
    omega
  constructor
  case backed_log => exact fun w => (hv.backed_log w).mono hg
  case backed_lead =>
    intro u ld hu
    rcases split u ld hu with ⟨_, hu⟩ | ⟨rfl, rfl⟩
    · exact (hv.backed_lead u ld hu).mono hg
    · exact (hv.backed_log c).mono hg
  case backed_vote => exact fun w u x hx => (hv.backed_vote w u x hx).mono hg
  case start_initial =>
    intro u ld hu
    rcases split u ld hu with ⟨_, hu⟩ | ⟨rfl, rfl⟩
    · exact hv.start_initial u ld hu
    · exact List.prefix_refl _
  case start_rank =>
    intro u ld hu
    rcases split u ld hu with ⟨_, hu⟩ | ⟨rfl, rfl⟩
    · exact hv.start_rank u ld hu
    · exact log_rank_lt hv ht hl
  case lead_rank =>
    intro u ld hu
    rcases split u ld hu with ⟨_, hu⟩ | ⟨rfl, rfl⟩
    · exact hv.lead_rank u ld hu
    · intro e he
      have := hv.log_rank c e he
      omega
  case log_rank => exact hv.log_rank
  case lead_term =>
    intro u ld hu
    rcases split u ld hu with ⟨_, hu⟩ | ⟨rfl, rfl⟩
    · exact hv.lead_term u ld hu
    · exact ht.ge
  case lead_log =>
    intro u ld hu hw
    rcases split u ld hu with ⟨_, hu⟩ | ⟨rfl, rfl⟩
    · exact hv.lead_log u ld hu hw
    · rfl
  case ack_term =>
    intro w u hw
    by_cases hc : w = c ∧ u = t
    · obtain ⟨rfl, rfl⟩ := hc
      exact ht.ge
    · exact hv.ack_term w u (by rwa [show (g.elect c t).ack w u = g.ack w u from put_of_ne _ _ hc] at hw)
  case ack_lead =>
    intro w u hw
    by_cases hc : w = c ∧ u = t
    · obtain ⟨rfl, rfl⟩ := hc
      refine ⟨_, elect_lead_self, ?_⟩
      exact (put_self g.ack w u _).le
    · rw [show (g.elect c t).ack w u = g.ack w u from put_of_ne _ _ hc] at hw ⊢
      obtain ⟨ld, hd, hle⟩ := hv.ack_lead w u hw
      obtain ⟨ld', hd', _, _, hp⟩ := hg.lead u ld hd
      exact ⟨ld', hd', hle.trans hp.length_le⟩
  case vote_term => exact hv.vote_term
  case kept =>
    intro w u ld k hu hd hk
    by_cases hc : w = c ∧ u = t
    · obtain ⟨rfl, rfl⟩ := hc
      rw [elect_lead_self] at hd
      cases hd
      exact fun _ => List.take_prefix _ _
    · rw [show (g.elect c t).ack w u = g.ack w u from put_of_ne _ _ hc] at hk
      exact (hv.kept w).at hv hg hb hu hd hk
  case cast =>
    intro w u x hx hn
    have hnone : g.lead u = none := by
      by_contra hne
      obtain ⟨ld, hd⟩ := Option.ne_none_iff_exists'.mp hne
      obtain ⟨ld', hd', _⟩ := hg.lead u ld hd
      rw [hn] at hd'
      cases hd'
    exact (hv.cast w u x hx hnone).step hv hg hb (old w u x hx)
  case won =>
    intro u ld hu
    rcases split u ld hu with ⟨_, hu⟩ | ⟨rfl, rfl⟩
    · obtain ⟨B, hB, hBall⟩ := hv.won u ld hu
      refine ⟨B, hB, ?_⟩
      intro w hw
      obtain ⟨l, hx, hup, hr⟩ := hBall w hw
      exact ⟨l, hx, hup, hr.step hv hg hb (old w u _ hx)⟩
    · refine ⟨A, hA, ?_⟩
      intro w hw
      obtain ⟨l, hx, hup⟩ := hall w hw
      exact ⟨l, hx, hup, (hv.cast w u _ hx hl).step hv hg hb (old w u _ hx)⟩

end elect

section extend
variable {c : V} {t : ℕ} {e : E} {ld : Leader V E}

theorem extend_eq (hl : g.lead t = some ld) : g.extend c t e =
    { g with
      lead := Function.update g.lead t (some { ld with log := ld.log ++ [e] })
      log := Function.update g.log c (ld.log ++ [e])
      ack := put g.ack c t (ld.log.length + 1) } := by
  simp [Ledger.extend, hl]

theorem extend_lead_self (hl : g.lead t = some ld) :
    (g.extend c t e).lead t = some { ld with log := ld.log ++ [e] } := by
  simp [extend_eq hl]

theorem extend_lead_of_ne (hl : g.lead t = some ld) {u : ℕ} (hu : u ≠ t) :
    (g.extend c t e).lead u = g.lead u := by
  simp [extend_eq hl, hu]

theorem extend_ack (hl : g.lead t = some ld) (w : V) (u : ℕ) :
    (g.extend c t e).ack w u = put g.ack c t (ld.log.length + 1) w u := by
  simp [extend_eq hl]

theorem extend_log_self (hl : g.lead t = some ld) : (g.extend c t e).log c = ld.log ++ [e] := by
  simp [extend_eq hl]

theorem extend_log_of_ne (hl : g.lead t = some ld) {w : V} (hw : w ≠ c) :
    (g.extend c t e).log w = g.log w := by
  simp [extend_eq hl, hw]

theorem extend_term (hl : g.lead t = some ld) : (g.extend c t e).term = g.term := by
  simp [extend_eq hl]

theorem extend_vote (hl : g.lead t = some ld) : (g.extend c t e).vote = g.vote := by
  simp [extend_eq hl]

theorem extend_lead_cases (hl : g.lead t = some ld) {u : ℕ} {lu : Leader V E}
    (hu : (g.extend c t e).lead u = some lu) :
    (u ≠ t ∧ g.lead u = some lu) ∨ (u = t ∧ lu = { ld with log := ld.log ++ [e] }) := by
  by_cases hut : u = t
  · subst hut
    rw [extend_lead_self hl] at hu
    exact .inr ⟨rfl, (Option.some.inj hu).symm⟩
  · exact .inl ⟨hut, by rwa [extend_lead_of_ne hl hut] at hu⟩

theorem grows_extend (hv : Valid rank Q g) (hl : g.lead t = some ld) :
    Grows g (g.extend c t e) := by
  refine ⟨?_, ?_, ?_, ?_⟩
  · intro u lu hu
    by_cases hut : u = t
    · subst hut
      rw [hl] at hu
      cases hu
      exact ⟨_, extend_lead_self hl, rfl, rfl, List.prefix_append _ _⟩
    · exact ⟨lu, by rw [extend_lead_of_ne hl hut]; exact hu, rfl, rfl, List.prefix_refl _⟩
  · intro w u
    rw [extend_ack hl]
    by_cases hw : w = c ∧ u = t
    · obtain ⟨rfl, rfl⟩ := hw
      rw [put_self]
      rcases Nat.eq_zero_or_pos (g.ack w u) with hz | hz
      · omega
      · obtain ⟨ld', hd, hle⟩ := hv.ack_lead w u hz
        rw [hl] at hd
        cases hd
        omega
    · rw [put_of_ne _ _ hw]
  · intro w u x hx
    rw [extend_vote hl]
    exact hx
  · intro w
    rw [extend_term hl]

theorem recedes_extend (hl : g.lead t = some ld) (he : rank e = t) :
    Recedes rank g (g.extend c t e) := by
  intro u lu hu
  by_cases hut : u = t
  · subst hut
    rw [hl] at hu
    cases hu
    refine ⟨_, extend_lead_self hl, ?_⟩
    intro p hp hpre
    rcases List.prefix_concat_iff.mp hpre with rfl | hpre
    · have := hp e (by simp)
      omega
    · exact hpre
  · exact ⟨lu, by rw [extend_lead_of_ne hl hut]; exact hu, fun _ _ hp => hp⟩

theorem backed_extend (hv : Valid rank Q g) (hl : g.lead t = some ld) (he : rank e = t) :
    Backed rank (g.extend c t e) (ld.log ++ [e]) := by
  intro k x hx
  by_cases hk : k < ld.log.length
  · rw [List.getElem?_append_left hk] at hx
    obtain ⟨lu, hu, hp⟩ := (hv.backed_lead t ld hl).mono (grows_extend hv hl) k x hx
    exact ⟨lu, hu, by rwa [List.take_append_of_le_length (by omega)]⟩
  · have hlen : k < (ld.log ++ [e]).length := (List.getElem?_eq_some_iff.mp hx).choose
    obtain rfl : k = ld.log.length := by
      simp only [List.length_append, List.length_singleton] at hlen
      omega
    rw [List.getElem?_concat_length] at hx
    cases hx
    rw [he]
    exact ⟨_, extend_lead_self hl, List.take_prefix _ _⟩

theorem valid_extend (hv : Valid rank Q g) (ht : g.term c = t) (hl : g.lead t = some ld)
    (hw : ld.who = c) (he : rank e = t) : Valid rank Q (g.extend c t e) := by
  have hg : Grows g (g.extend c t e) := grows_extend hv hl
  have hb : Recedes rank g (g.extend c t e) := recedes_extend hl he
  have hlog : g.log c = ld.log := by
    subst hw
    exact hv.lead_log t ld hl ht
  -- only what `c` acknowledges in its own term changes, and a vote looks at lower terms
  have old : ∀ w u x, g.vote w u = some x → ∀ r < u, (g.extend c t e).ack w r = g.ack w r := by
    intro w u x hx r hr
    rw [extend_ack hl]
    apply put_of_ne
    rintro ⟨rfl, rfl⟩
    have := hv.vote_term w u x hx
    omega
  constructor
  case backed_log =>
    intro w
    by_cases hwc : w = c
    · subst hwc
      rw [extend_log_self hl]
      exact backed_extend hv hl he
    · rw [extend_log_of_ne hl hwc]
      exact (hv.backed_log w).mono hg
  case backed_lead =>
    intro u lu hu
    rcases extend_lead_cases hl hu with ⟨_, hu⟩ | ⟨rfl, rfl⟩
    · exact (hv.backed_lead u lu hu).mono hg
    · exact backed_extend hv hl he
  case backed_vote =>
    intro w u x hx
    rw [extend_vote hl] at hx
    exact (hv.backed_vote w u x hx).mono hg
  case start_initial =>
    intro u lu hu
    rcases extend_lead_cases hl hu with ⟨_, hu⟩ | ⟨rfl, rfl⟩
    · exact hv.start_initial u lu hu
    · exact (hv.start_initial u ld hl).trans (List.prefix_append _ _)
  case start_rank =>
    intro u lu hu
    rcases extend_lead_cases hl hu with ⟨_, hu⟩ | ⟨rfl, rfl⟩
    · exact hv.start_rank u lu hu
    · exact hv.start_rank u ld hl
  case lead_rank =>
    intro u lu hu
    rcases extend_lead_cases hl hu with ⟨_, hu⟩ | ⟨rfl, rfl⟩
    · exact hv.lead_rank u lu hu
    · intro x hx
      rcases List.mem_append.mp hx with hx | hx
      · exact hv.lead_rank u ld hl x hx
      · rw [List.mem_singleton.mp hx, he]
  case log_rank =>
    intro w x hx
    rw [extend_term hl]
    by_cases hwc : w = c
    · subst hwc
      rw [extend_log_self hl] at hx
      rcases List.mem_append.mp hx with hx | hx
      · exact hv.log_rank w x (hlog ▸ hx)
      · rw [List.mem_singleton.mp hx, he, ht]
    · rw [extend_log_of_ne hl hwc] at hx
      exact hv.log_rank w x hx
  case lead_term =>
    intro u lu hu
    rw [extend_term hl]
    rcases extend_lead_cases hl hu with ⟨_, hu⟩ | ⟨rfl, rfl⟩
    · exact hv.lead_term u lu hu
    · exact hv.lead_term u ld hl
  case lead_log =>
    intro u lu hu hu'
    rw [extend_term hl] at hu'
    rcases extend_lead_cases hl hu with ⟨hne, hu⟩ | ⟨rfl, rfl⟩
    · have hwc : lu.who ≠ c := by
        intro h
        rw [h] at hu'
        omega
      rw [extend_log_of_ne hl hwc]
      exact hv.lead_log u lu hu hu'
    · subst hw
      exact extend_log_self hl
  case ack_term =>
    intro w u hpos
    rw [extend_term hl]
    rw [extend_ack hl] at hpos
    by_cases hc : w = c ∧ u = t
    · obtain ⟨rfl, rfl⟩ := hc
      exact ht.ge
    · rw [put_of_ne _ _ hc] at hpos
      exact hv.ack_term w u hpos
  case ack_lead =>
    intro w u hpos
    rw [extend_ack hl] at hpos ⊢
    by_cases hc : w = c ∧ u = t
    · obtain ⟨rfl, rfl⟩ := hc
      rw [put_self]
      exact ⟨_, extend_lead_self hl, by simp⟩
    · rw [put_of_ne _ _ hc] at hpos ⊢
      obtain ⟨lu, hu, hle⟩ := hv.ack_lead w u hpos
      obtain ⟨lu', hu', _, _, hp⟩ := hg.lead u lu hu
      exact ⟨lu', hu', hle.trans hp.length_le⟩
  case vote_term =>
    intro w u x hx
    rw [extend_term hl]
    rw [extend_vote hl] at hx
    exact hv.vote_term w u x hx
  case kept =>
    intro w u lu k hu hd hk
    rw [extend_term hl] at hu ⊢
    rw [extend_ack hl] at hk
    by_cases hc : w = c ∧ u = t
    · obtain ⟨rfl, rfl⟩ := hc
      rw [extend_lead_self hl] at hd
      cases hd
      rw [extend_log_self hl]
      exact fun _ => List.take_prefix _ _
    · rw [put_of_ne _ _ hc] at hk
      have carried := (hv.kept w).at hv hg hb hu hd hk
      by_cases hwc : w = c
      · subst hwc
        rw [extend_log_self hl]
        rw [hlog] at carried
        exact fun prem => (carried prem).trans (List.prefix_append _ _)
      · rw [extend_log_of_ne hl hwc]
        exact carried
  case cast =>
    intro w u x hx hn
    rw [extend_vote hl] at hx
    have hne : u ≠ t := by
      rintro rfl
      rw [extend_lead_self hl] at hn
      cases hn
    rw [extend_lead_of_ne hl hne] at hn
    exact (hv.cast w u x hx hn).step hv hg hb (old w u x hx)
  case won =>
    intro u lu hu
    rw [extend_vote hl]
    rcases extend_lead_cases hl hu with ⟨_, hu⟩ | ⟨rfl, rfl⟩
    · obtain ⟨A, hA, hall⟩ := hv.won u lu hu
      refine ⟨A, hA, ?_⟩
      intro w hw
      obtain ⟨l, hx, hup, hr⟩ := hall w hw
      exact ⟨l, hx, hup, hr.step hv hg hb (old w u _ hx)⟩
    · obtain ⟨A, hA, hall⟩ := hv.won u ld hl
      refine ⟨A, hA, ?_⟩
      intro w hw
      obtain ⟨l, hx, hup, hr⟩ := hall w hw
      exact ⟨l, hx, hup, hr.step hv hg hb (old w u _ hx)⟩

end extend

section accept
variable {v : V} {t : ℕ} {m : List E} {ld : Leader V E}

theorem accept_log_self : (g.accept v t m).log v = adopt (g.log v) m := by
  simp [Ledger.accept]

theorem accept_log_of_ne {w : V} (hw : w ≠ v) : (g.accept v t m).log w = g.log w := by
  simp [Ledger.accept, hw]

theorem accept_ack_of_ne {w : V} {u : ℕ} (hw : ¬ (w = v ∧ u = t)) :
    (g.accept v t m).ack w u = g.ack w u :=
  put_of_ne g.ack _ hw

theorem accept_ack_self : (g.accept v t m).ack v t = max (g.ack v t) m.length :=
  put_self g.ack v t _

theorem grows_accept : Grows g (g.accept v t m) := by
  refine ⟨(Grows.refl g).lead, ?_, fun _ _ _ hx => hx, fun _ => le_refl _⟩
  intro w u
  by_cases hw : w = v ∧ u = t
  · obtain ⟨rfl, rfl⟩ := hw
    rw [accept_ack_self]
    exact le_max_left _ _
  · rw [accept_ack_of_ne hw]

theorem mem_adopt {l : List E} {x : E} (hx : x ∈ adopt l m) : x ∈ l ∨ x ∈ m := by
  unfold adopt at hx
  split_ifs at hx
  · exact .inl hx
  · exact .inr hx

theorem valid_accept (hv : Valid rank Q g) (ht : g.term v = t) (hl : g.lead t = some ld)
    (hw : ld.who ≠ v) (hm : m <+: ld.log) : Valid rank Q (g.accept v t m) := by
  have hg : Grows g (g.accept v t m) := grows_accept
  have hb : Recedes rank g (g.accept v t m) := recedes_of_lead_eq rfl
  have old : ∀ w u x, g.vote w u = some x → ∀ r < u, (g.accept v t m).ack w r = g.ack w r := by
    intro w u x hx r hr
    apply accept_ack_of_ne
    rintro ⟨rfl, rfl⟩
    have := hv.vote_term w u x hx
    omega
  refine { hv with backed_log := ?_, backed_lead := ?_, backed_vote := ?_, log_rank := ?_,
                   lead_log := ?_, ack_term := ?_, ack_lead := ?_, kept := ?_, cast := ?_,
                   won := ?_ }
  · intro w
    by_cases hwv : w = v
    · subst hwv
      rw [accept_log_self]
      unfold adopt
      split_ifs
      · exact (hv.backed_log w).mono hg
      · exact ((hv.backed_lead t ld hl).restrict hm).mono hg
    · rw [accept_log_of_ne hwv]
      exact (hv.backed_log w).mono hg
  · exact fun u lu hu => (hv.backed_lead u lu hu).mono hg
  · exact fun w u x hx => (hv.backed_vote w u x hx).mono hg
  · intro w x hx
    by_cases hwv : w = v
    · subst hwv
      rw [accept_log_self] at hx
      rcases mem_adopt hx with hx | hx
      · exact hv.log_rank w x hx
      · have := hv.lead_rank t ld hl x (hm.subset hx)
        change rank x ≤ g.term w
        omega
    · rw [accept_log_of_ne hwv] at hx
      exact hv.log_rank w x hx
  · intro u lu hu hu'
    have hne : lu.who ≠ v := by
      intro h
      have htu : u = t := by
        rw [← hu', h]
        exact ht
      subst htu
      change g.lead u = some lu at hu
      rw [hl] at hu
      cases hu
      exact hw h
    rw [accept_log_of_ne hne]
    exact hv.lead_log u lu hu hu'
  · intro w u hpos
    by_cases hc : w = v ∧ u = t
    · obtain ⟨rfl, rfl⟩ := hc
      exact ht.ge
    · rw [accept_ack_of_ne hc] at hpos
      exact hv.ack_term w u hpos
  · intro w u hpos
    by_cases hc : w = v ∧ u = t
    · obtain ⟨rfl, rfl⟩ := hc
      refine ⟨ld, hl, ?_⟩
      rw [accept_ack_self]
      have := hm.length_le
      rcases Nat.eq_zero_or_pos (g.ack w u) with hz | hz
      · omega
      · obtain ⟨ld', hd, hle⟩ := hv.ack_lead w u hz
        rw [hl] at hd
        cases hd
        omega
    · rw [accept_ack_of_ne hc] at hpos ⊢
      exact hv.ack_lead w u hpos
  · intro w u lu k hu hd hk prem
    by_cases hwv : w = v
    · subst hwv
      change u < g.term w + 1 at hu
      rw [accept_log_self]
      by_cases hut : u = t
      · subst hut
        change g.lead u = some lu at hd
        rw [hl] at hd
        cases hd
        rw [accept_ack_self] at hk
        by_cases hkm : k ≤ m.length
        · rw [take_initial hm hkm]
          exact (show _ <+: _ from ⟨_, List.take_append_drop _ _⟩).trans (prefix_adopt _ _)
        · have kept := hv.kept w u ld k hu hl (by omega) (by intros; omega)
          exact adopt_keeps kept ⟨_, List.take_append_drop _ _⟩ hm
      · rw [accept_ack_of_ne (by tauto)] at hk
        have kept := (hv.kept w).at hv hg hb hu hd hk prem
        have inLeader : lu.log.take k <+: ld.log :=
          prem t ld (by omega) (by change t < g.term w + 1; omega) hl
        exact adopt_keeps kept inLeader hm
    · rw [accept_log_of_ne hwv]
      rw [accept_ack_of_ne (by tauto)] at hk
      exact (hv.kept w).at hv hg hb hu hd hk prem
  · exact fun w u x hx hn => (hv.cast w u x hx hn).step hv hg hb (old w u x hx)
  · intro u lu hu
    obtain ⟨A, hA, hall⟩ := hv.won u lu hu
    refine ⟨A, hA, ?_⟩
    intro w hwA
    obtain ⟨l, hx, hup, hr⟩ := hall w hwA
    exact ⟨l, hx, hup, hr.step hv hg hb (old w u _ hx)⟩

end accept

theorem valid_empty : Valid rank Q (empty : Ledger V E) := by
  constructor <;> simp [empty, Backed, Remembers]

theorem Act.grows (hv : Valid rank Q g) (ha : Act rank Q g h) : Grows g h := by
  cases ha with
  | advance v t ht => exact grows_advance ht
  | castVote v t c ht => exact grows_castVote
  | elect c t A ht hl hA hall => exact grows_elect hv hl
  | extend c t e ld ht hl hw he => exact grows_extend hv hl
  | accept v t m ld ht hl hw hm => exact grows_accept

theorem Act.valid (hv : Valid rank Q g) (ha : Act rank Q g h) : Valid rank Q h := by
  cases ha with
  | advance v t ht => exact valid_advance hv ht
  | castVote v t c ht => exact valid_castVote hv ht
  | elect c t A ht hl hA hall => exact valid_elect hv A ht hl hA hall
  | extend c t e ld ht hl hw he => exact valid_extend hv ht hl hw he
  | accept v t m ld ht hl hw hm => exact valid_accept hv ht hl hw hm

/-- Whole runs of the protocol keep the invariant and only add to the history. -/
theorem acts_valid (ha : Relation.ReflTransGen (Act rank Q) g h) (hv : Valid rank Q g) :
    Valid rank Q h ∧ Grows g h := by
  induction ha with
  | refl => exact ⟨hv, Grows.refl g⟩
  | tail _ step ih => exact ⟨step.valid ih.1, ih.2.trans (step.grows ih.1)⟩

end DistributedLabs.TermLedger
