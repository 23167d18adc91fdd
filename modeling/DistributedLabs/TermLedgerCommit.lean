import DistributedLabs.TermLedgerSteps

set_option autoImplicit false

/-! What a commit quorum has acknowledged is in the log of every later leader. -/
namespace DistributedLabs.TermLedger

variable {V E : Type} {rank : E → ℕ} {Q : Quorums V} {g h : Ledger V E}

/-- The leader of `t` has an entry of its own term at position `k`, acknowledged by a
    commit quorum. -/
def Committed (rank : E → ℕ) (Q : Quorums V) (g : Ledger V E) (t k : ℕ) : Prop :=
  ∃ ld e B, g.lead t = some ld ∧ 0 < k ∧ ld.log[k - 1]? = some e ∧ rank e = t ∧
    Q.commits B ∧ ∀ v ∈ B, k ≤ g.ack v t

def Sealed (rank : E → ℕ) (Q : Quorums V) (g : Ledger V E) (t : ℕ) (l : List E) : Prop :=
  l = [] ∨ ∃ u k ld, u ≤ t ∧ Committed rank Q g u k ∧ g.lead u = some ld ∧ l <+: ld.log.take k

theorem Committed.mono (hg : Grows g h) {t k : ℕ} (hc : Committed rank Q g t k) :
    Committed rank Q h t k := by
  obtain ⟨ld, e, B, hl, hk, he, hr, hB, ha⟩ := hc
  obtain ⟨ld', hl', _, _, r, hp⟩ := hg.lead t ld hl
  have hlt : k - 1 < ld.log.length := (List.getElem?_eq_some_iff.mp he).choose
  refine ⟨ld', e, B, hl', hk, ?_, hr, hB, fun v hv => (ha v hv).trans (hg.ack v t)⟩
  rw [← hp, List.getElem?_append_left hlt]
  exact he

theorem Sealed.mono (hg : Grows g h) {t : ℕ} {l : List E} (hs : Sealed rank Q g t l) :
    Sealed rank Q h t l := by
  rcases hs with rfl | ⟨u, k, ld, hu, hc, hl, hp⟩
  · exact .inl rfl
  · obtain ⟨ld', hl', _, _, hp'⟩ := hg.lead u ld hl
    exact .inr ⟨u, k, ld', hu, hc.mono hg, hl', hp.trans (hp'.take k)⟩

theorem Sealed.raise {t t' : ℕ} {l : List E} (hs : Sealed rank Q g t l) (ht : t ≤ t') :
    Sealed rank Q g t' l := by
  rcases hs with rfl | ⟨u, k, ld, hu, rest⟩
  · exact .inl rfl
  · exact .inr ⟨u, k, ld, hu.trans ht, rest⟩

theorem Sealed.restrict {t : ℕ} {l m : List E} (hs : Sealed rank Q g t l) (hm : m <+: l) :
    Sealed rank Q g t m := by
  rcases hs with rfl | ⟨u, k, ld, hu, hc, hl, hp⟩
  · exact .inl (List.prefix_nil.mp hm)
  · exact .inr ⟨u, k, ld, hu, hc, hl, hm.trans hp⟩

theorem getLast?_rank (rank : E → ℕ) (l : List E) (hl : l ≠ []) :
    ∃ e, l[l.length - 1]? = some e ∧ lastRank rank l = rank e := by
  refine ⟨l.getLast hl, ?_, ?_⟩
  · rw [← List.getLast?_eq_getElem?, List.getLast?_eq_some_getLast hl]
  · simp [lastRank, List.getLast?_eq_some_getLast hl]

/-- A log that is as up to date as one holding `p` holds `p` too, when the leaders
    between the term of `p` and `b` do. -/
theorem prefix_of_upToDate (hv : Valid rank Q g) {t b : ℕ} {ld : Leader V E} {p l s : List E}
    {e : E} (hl : g.lead t = some ld) (hp : p <+: ld.log) (hpos : 0 < p.length)
    (he : p[p.length - 1]? = some e) (hr : rank e = t)
    (later : ∀ u lu, t < u → u < b → g.lead u = some lu → p <+: lu.log)
    (hbl : Backed rank g l) (hpl : p <+: l) (hbs : Backed rank g s)
    (hsb : ∀ x ∈ s, rank x < b) (up : UpToDate rank s l) : p <+: s := by
  have hlen := hpl.length_le
  have lne : l ≠ [] := by
    rintro rfl
    simp only [List.length_nil] at hlen
    omega
  -- the holder ends in a term no earlier than the one of `p`
  obtain ⟨x, hx, hxr⟩ := getLast?_rank rank l lne
  have hel : l[p.length - 1]? = some e := by
    obtain ⟨r, rfl⟩ := hpl
    rw [List.getElem?_append_left (by omega)]
    exact he
  have htl : t ≤ lastRank rank l := by
    rw [← hr, hxr]
    exact hbl.sorted hv hel hx (by omega)
  have sne : s ≠ [] := by
    rintro rfl
    rcases up with up | ⟨_, up⟩
    · simp [lastRank] at up
    · simp only [List.length_nil] at up
      omega
  obtain ⟨y, hy, hyr⟩ := getLast?_rank rank s sne
  obtain ⟨ly, hly, hys⟩ := hbs _ y hy
  rw [List.take_of_length_le (by omega)] at hys
  have hts : t ≤ rank y := by
    rcases up with up | ⟨up, _⟩ <;> omega
  rcases hts.lt_or_eq with hlt | heq
  · have hpy := later (rank y) ly hlt (hsb y (List.mem_of_getElem? hy)) hly
    rcases List.prefix_or_prefix_of_prefix hpy hys with hps | hsp
    · exact hps
    · have := hv.lead_rank t ld hl y (hp.subset (hsp.subset (List.mem_of_getElem? hy)))
      omega
  · rw [← heq, hl] at hly
    cases hly
    have hle : p.length ≤ s.length := by
      rcases up with up | ⟨_, up⟩ <;> omega
    exact List.prefix_of_prefix_length_le hp hys hle

/-- Leader completeness. -/
theorem Committed.in_start (hv : Valid rank Q g) {t k : ℕ} (hc : Committed rank Q g t k)
    {ld : Leader V E} (hl : g.lead t = some ld) :
    ∀ u lu, t < u → g.lead u = some lu → ld.log.take k <+: lu.start := by
  obtain ⟨ld', e, B, hl', hk, he, hr, hB, ha⟩ := hc
  rw [hl] at hl'
  cases hl'
  intro u
  induction u using Nat.strong_induction_on with
  | _ u ih =>
    intro lu htu hlu
    have hlt : k - 1 < ld.log.length := (List.getElem?_eq_some_iff.mp he).choose
    have later : ∀ w lw, t < w → w < u → g.lead w = some lw → ld.log.take k <+: lw.log :=
      fun w lw htw hwu hw => (ih w hwu lw htw hw).trans (hv.start_initial w lw hw)
    obtain ⟨A, hA, hall⟩ := hv.won u lu hlu
    obtain ⟨v, hvA, hvB⟩ := Q.meet A B hA hB
    obtain ⟨l, hx, up, hrem⟩ := hall v hvA
    have held : ld.log.take k <+: l := hrem t ld k htu hl (ha v hvB) later
    have hpl : (ld.log.take k).length = k := by
      rw [List.length_take]
      omega
    apply prefix_of_upToDate hv hl ⟨_, List.take_append_drop _ _⟩ (by omega) (e := e) ?_ hr later
      (hv.backed_vote v u _ hx) held
      ((hv.backed_lead u lu hlu).restrict (hv.start_initial u lu hlu)) (hv.start_rank u lu hlu) up
    rw [hpl, List.getElem?_take]
    simp only [show k - 1 < k by omega, ↓reduceIte]
    exact he

theorem Sealed.in_lead (hv : Valid rank Q g) {t u : ℕ} {l : List E} (hs : Sealed rank Q g t l)
    (htu : t ≤ u) {lu : Leader V E} (hlu : g.lead u = some lu) : l <+: lu.log := by
  rcases hs with rfl | ⟨w, k, ld, hw, hc, hl, hp⟩
  · exact List.nil_prefix
  · rcases (hw.trans htu).lt_or_eq with hlt | rfl
    · exact hp.trans ((hc.in_start hv hl u lu hlt hlu).trans (hv.start_initial u lu hlu))
    · rw [hl] at hlu
      cases hlu
      exact hp.trans ⟨_, List.take_append_drop _ _⟩

theorem Sealed.comparable (hv : Valid rank Q g) {t u : ℕ} {l m : List E}
    (hl : Sealed rank Q g t l) (hm : Sealed rank Q g u m) : l <+: m ∨ m <+: l := by
  have key : ∀ (t u : ℕ) (l m : List E), Sealed rank Q g t l →
      (∃ k ld, t ≤ u ∧ Committed rank Q g u k ∧ g.lead u = some ld ∧ m <+: ld.log.take k) →
      l <+: m ∨ m <+: l := by
    rintro t u l m hl ⟨k, ld, htu, hc, hd, hp⟩
    exact List.prefix_or_prefix_of_prefix (hl.in_lead hv htu hd) (hp.trans ⟨_, List.take_append_drop _ _⟩)
  rcases hl with rfl | ⟨w, k, ld, hw, hc, hd, hp⟩
  · exact .inl List.nil_prefix
  rcases hm with rfl | ⟨w', k', ld', hw', hc', hd', hp'⟩
  · exact .inr List.nil_prefix
  rcases le_total w w' with hle | hle
  · exact key w w' l m (.inr ⟨w, k, ld, le_refl _, hc, hd, hp⟩) ⟨k', ld', hle, hc', hd', hp'⟩
  · exact (key w' w m l (.inr ⟨w', k', ld', le_refl _, hc', hd', hp'⟩)
      ⟨k, ld, hle, hc, hd, hp⟩).symm

theorem Sealed.eq_of_length (hv : Valid rank Q g) {t u : ℕ} {l m : List E}
    (hl : Sealed rank Q g t l) (hm : Sealed rank Q g u m) (hlen : l.length = m.length) : l = m := by
  rcases hl.comparable hv hm with hp | hp
  · exact hp.eq_of_length hlen
  · exact (hp.eq_of_length hlen.symm).symm

/-- A message of a leader takes no committed entry away. -/
theorem Sealed.adopt (hv : Valid rank Q g) {t u : ℕ} {p l m : List E} {lu : Leader V E}
    (hs : Sealed rank Q g t p) (hp : p <+: l) (htu : t ≤ u) (hlu : g.lead u = some lu)
    (hm : m <+: lu.log) : p <+: TermLedger.adopt l m :=
  adopt_keeps hp (hs.in_lead hv htu hlu) hm

end DistributedLabs.TermLedger
