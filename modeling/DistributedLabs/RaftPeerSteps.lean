import DistributedLabs.RaftHistory

set_option autoImplicit false

/-! What each critical section does to one peer and to the history. -/
namespace DistributedLabs.RaftHistory
open RaftModel RaftCluster RaftShape TermLedger

variable {n : ℕ} {C S : Type} {sm : StateMachine C S} {g : History n C}
  {d : List (Delivery n C S)} {p : Fin n} {rf : Raft n C S}

theorem durable_persist (rf : Raft n C S) : Durable rf.persist :=
  ⟨rfl, rfl, rfl, rfl, rfl, rfl⟩

theorem advance_self (g : History n C) (v : Fin n) : g.advance v (g.term v) = g := by
  simp [Ledger.advance]

theorem RaftInv.advance_eq (hi : RaftInv sm g d p rf) : g.advance p rf.currentTerm = g := by
  rw [← hi.term]
  exact advance_self g p

section untouched
variable {q : Fin n}

theorem untouched_advance (hq : q ≠ p) (t : ℕ) : Untouched g (g.advance p t) q :=
  ⟨by simp [Ledger.advance, hq], rfl, fun _ => rfl, fun _ _ hl _ => hl⟩

theorem castVote_frame (g : History n C) (v : Fin n) (t : ℕ) (c : Fin n) :
    (g.castVote v t c).term = g.term ∧ (g.castVote v t c).log = g.log ∧
      (g.castVote v t c).lead = g.lead ∧ (g.castVote v t c).ack = g.ack := by
  unfold Ledger.castVote
  split <;> exact ⟨rfl, rfl, rfl, rfl⟩

theorem castVote_vote {v c : Fin n} {t u : ℕ} {x : Fin n × List (LogEntry C)}
    (h : (g.castVote p t c).vote v u = some x) :
    g.vote v u = some x ∨ (v = p ∧ u = t ∧ x = (c, g.log p)) := by
  cases hx : g.vote p t with
  | some y => rw [castVote_some hx] at h; exact .inl h
  | none =>
    rw [castVote_none hx] at h
    by_cases hv : v = p ∧ u = t
    · obtain ⟨rfl, rfl⟩ := hv
      dsimp only at h
      rw [put_self] at h
      exact .inr ⟨rfl, rfl, (Option.some.inj h).symm⟩
    · exact .inl (by simpa only [put_of_ne _ _ hv] using h)

theorem untouched_castVote (hq : q ≠ p) (t : ℕ) (c : Fin n) : Untouched g (g.castVote p t c) q := by
  obtain ⟨hterm, hlog, hlead, _⟩ := castVote_frame g p t c
  refine ⟨by rw [hterm], by rw [hlog], ?_, fun _ _ hl _ => by rwa [hlead] at hl⟩
  intro u
  cases hx : g.vote p t with
  | some y => rw [castVote_some hx]
  | none =>
    rw [castVote_none hx]
    exact put_of_ne _ _ fun h => hq h.1

theorem untouched_elect (hq : q ≠ p) (t : ℕ) : Untouched g (g.elect p t) q := by
  refine ⟨rfl, rfl, fun _ => rfl, ?_⟩
  intro u ld hl hw
  by_cases hu : u = t
  · subst hu
    rw [elect_lead_self] at hl
    cases hl
    exact absurd hw.symm hq
  · rwa [elect_lead_of_ne hu] at hl

theorem untouched_extend (hq : q ≠ p) {t : ℕ} {ld : Leader (Fin n) (LogEntry C)}
    (hl : g.lead t = some ld) (hw : ld.who = p) (e : LogEntry C) :
    Untouched g (g.extend p t e) q := by
  refine ⟨by rw [extend_term hl], extend_log_of_ne hl hq, fun _ => by rw [extend_vote hl], ?_⟩
  intro u lu hu hwu
  rcases extend_lead_cases hl hu with ⟨_, hu⟩ | ⟨rfl, rfl⟩
  · exact hu
  · exact absurd (hwu.symm.trans hw) hq

theorem untouched_accept (hq : q ≠ p) (t : ℕ) (m : List (LogEntry C)) :
    Untouched g (g.accept p t m) q :=
  ⟨rfl, accept_log_of_ne hq, fun _ => rfl, fun _ _ hl _ => hl⟩

end untouched

/-- One critical section of `p` as the rest of the cluster sees it. -/
structure Outcome (sm : StateMachine C S) (d : List (Delivery n C S)) (p : Fin n)
    (g h : History n C) (rf rf' : Raft n C S) : Prop where
  acts : Relation.ReflTransGen (Act LogEntry.term (Majority.quorums n)) g h
  others : ∀ q, q ≠ p → Untouched g h q
  inv : RaftInv sm h d p rf'
  term : rf.currentTerm ≤ rf'.currentTerm
  candidate : rf'.state = .candidate → rf.state = .candidate ∧
    rf'.currentTerm = rf.currentTerm ∧ h.log p = g.log p
  commit : rf.commitIndex ≤ rf'.commitIndex
  applied : rf'.lastApplied = rf.lastApplied

theorem Outcome.refl (hi : RaftInv sm g d p rf) : Outcome sm d p g g rf rf :=
  ⟨.refl, fun q _ => Untouched.refl g q, hi, le_refl _, fun hc => ⟨hc, rfl, rfl⟩, le_refl _,
    rfl⟩

/-- The peer joins another term or a leader of its own term. -/
theorem Outcome.of_follower {t : ℕ} {rf' : Raft n C S} (ht : g.term p ≤ t)
    (hi : RaftInv sm (g.advance p t) d p rf') (hs : rf'.state = .follower)
    (hle : rf.currentTerm ≤ rf'.currentTerm) (hc : rf'.commitIndex = rf.commitIndex)
    (ha : rf'.lastApplied = rf.lastApplied) :
    Outcome sm d p g (g.advance p t) rf rf' :=
  ⟨.single (.advance p t ht), fun _ hq => untouched_advance hq t, hi, hle,
    fun hcand => absurd (hs.symm.trans hcand) (by decide), hc.ge, ha⟩

section terms
variable {t : ℕ}

theorem RaftInv.toFollower (hi : RaftInv sm g d p rf)
    (hv : Valid LogEntry.term (Majority.quorums n) g) (ht : rf.currentTerm < t) :
    RaftInv sm (g.advance p t) d p (rf.toFollower t) := by
  have hg : Grows g (g.advance p t) := grows_advance (by rw [hi.term]; omega)
  refine { hi with term := ?_, shape := ⟨hi.shape.base, hi.shape.log, hi.shape.baseTerm⟩,
                   durable := durable_persist _, voted := ?_, voter := ?_, leads := ?_, led := ?_,
                   committed := (hi.committed.mono hg).raise ht.le, acked := ?_ }
  · simp [Ledger.advance, Raft.toFollower, Raft.persist]
  · intro c l hvote
    have := hv.vote_term p t _ hvote
    rw [hi.term] at this
    omega
  · intro c hc
    cases hc
  · intro hs
    cases hs
  · intro ld _ _ hs
    cases hs
  · intro hs
    cases hs

theorem RaftInv.follow (hi : RaftInv sm g d p rf)
    (hv : Valid LogEntry.term (Majority.quorums n) g) (ht : rf.currentTerm ≤ t) :
    RaftInv sm (g.advance p t) d p (rf.follow t) := by
  unfold Raft.follow
  split_ifs with hlt
  · exact hi.toFollower hv hlt
  · obtain rfl : t = rf.currentTerm := by omega
    rw [hi.advance_eq]
    refine { hi with shape := ⟨hi.shape.base, hi.shape.log, hi.shape.baseTerm⟩,
                     durable := { hi.durable with }, leads := ?_, led := ?_, acked := ?_ }
    · intro hs
      cases hs
    · intro ld _ _ hs
      cases hs
    · intro hs
      cases hs

theorem follow_term (ht : rf.currentTerm ≤ t) : (rf.follow t).currentTerm = t := by
  unfold Raft.follow
  split_ifs with hlt
  · rfl
  · change rf.currentTerm = t
    omega

theorem follow_state : (rf.follow t).state = .follower := by
  unfold Raft.follow
  split_ifs <;> rfl

theorem follow_of_term (ht : rf.currentTerm = t) : rf.follow t = { rf with state := .follower } := by
  unfold Raft.follow
  rw [if_neg (by omega)]

@[simp] theorem follow_log (rf : Raft n C S) (t : ℕ) : (rf.follow t).log = rf.log := by
  unfold Raft.follow
  split_ifs <;> rfl

@[simp] theorem follow_base (rf : Raft n C S) (t : ℕ) :
    (rf.follow t).lastIncludedIndex = rf.lastIncludedIndex := by
  unfold Raft.follow
  split_ifs <;> rfl

@[simp] theorem follow_commit (rf : Raft n C S) (t : ℕ) :
    (rf.follow t).commitIndex = rf.commitIndex := by
  unfold Raft.follow
  split_ifs <;> rfl

@[simp] theorem follow_applied (rf : Raft n C S) (t : ℕ) :
    (rf.follow t).lastApplied = rf.lastApplied := by
  unfold Raft.follow
  split_ifs <;> rfl

@[simp] theorem follow_lastLogIndex (rf : Raft n C S) (t : ℕ) :
    (rf.follow t).lastLogIndex = rf.lastLogIndex := by
  simp [Raft.lastLogIndex]

@[simp] theorem follow_entryAt (rf : Raft n C S) (t i : ℕ) :
    (rf.follow t).entryAt i = rf.entryAt i := by
  simp [Raft.entryAt, Raft.offset]

theorem RaftInv.observeTerm (hi : RaftInv sm g d p rf)
    (hv : Valid LogEntry.term (Majority.quorums n) g) :
    RaftInv sm (g.advance p (rf.observeTerm t).currentTerm) d p (rf.observeTerm t) := by
  unfold Raft.observeTerm
  split_ifs with hlt
  · exact hi.toFollower hv hlt
  · rw [hi.advance_eq]
    exact hi

end terms

section votes

/-- A vote changes the peer's vote and nothing else that its invariant reads. -/
theorem RaftInv.castVote (hi : RaftInv sm g d p rf) {c : Fin n}
    (hc : rf.votedFor = none ∨ rf.votedFor = some c) :
    RaftInv sm (g.castVote p rf.currentTerm c) d p { rf with votedFor := some c }.persist := by
  obtain ⟨hterm, hlog, hlead, hack⟩ := castVote_frame g p rf.currentTerm c
  have record : ∃ l, (g.castVote p rf.currentTerm c).vote p rf.currentTerm = some (c, l) := by
    cases hx : g.vote p rf.currentTerm with
    | none =>
      rw [castVote_none hx]
      exact ⟨g.log p, put_self _ _ _ _⟩
    | some x =>
      have hvoted := hi.voted x.1 x.2 hx
      rw [castVote_some hx, hx]
      refine ⟨x.2, ?_⟩
      rcases hc with hc | hc <;> rw [hc] at hvoted
      · cases hvoted
      · cases hvoted
        rfl
  refine { hi with term := ?_, shape := ?_, durable := durable_persist _, voted := ?_, voter := ?_,
                   leads := ?_, led := ?_, commit_le := ?_, committed := ?_, snapshot := ?_,
                   acked := ?_ }
  · rw [hterm]; exact hi.term
  · rw [hlog]; exact ⟨hi.shape.base, hi.shape.log, hi.shape.baseTerm⟩
  · intro c' l hvote
    obtain ⟨l', hl'⟩ := record
    change _ = some (c', l) at hvote
    have := hl'.symm.trans hvote
    cases this
    rfl
  · intro c' hc'
    cases hc'
    exact record
  · rw [hlead]; exact hi.leads
  · rw [hlead]; exact hi.led
  · rw [hlog]; exact hi.commit_le
  · rw [hlog]; exact hi.committed.mono grows_castVote
  · rw [hlog]; exact hi.snapshot
  · rw [hack]; exact hi.acked

theorem RaftInv.startElection (hi : RaftInv sm g d p rf)
    (hv : Valid LogEntry.term (Majority.quorums n) g) :
    RaftInv sm ((g.advance p (rf.currentTerm + 1)).castVote p (rf.currentTerm + 1) p) d p
      rf.startElection := by
  have hf := hi.toFollower hv (Nat.lt_succ_self rf.currentTerm)
  have hvote := hf.castVote (c := p) (.inl rfl)
  refine { hvote with voter := ?_, leads := ?_, led := ?_, acked := ?_, durable := durable_persist _,
                      shape := ⟨hvote.shape.base, hvote.shape.log, hvote.shape.baseTerm⟩,
                      voted := ?_ }
  · intro c l hl
    have := hvote.voted c l hl
    change some rf.me = some c
    rw [hi.me]
    exact this
  · intro c hc
    apply hvote.voter c
    change some rf.me = some c at hc
    rw [hi.me] at hc
    exact hc
  · intro hs
    cases hs
  · intro ld hl hw
    rw [(castVote_frame _ _ _ _).2.2.1] at hl
    have := hv.lead_term _ ld hl
    rw [hw, hi.term] at this
    change rf.currentTerm + 1 ≤ rf.currentTerm at this
    omega
  · intro hs
    cases hs

end votes

section leader

theorem RaftInv.becomeLeader (hi : RaftInv sm g d p rf)
    (hv : Valid LogEntry.term (Majority.quorums n) g) (hs : rf.state = .candidate)
    (hn : g.lead rf.currentTerm = none) :
    RaftInv sm (g.elect p rf.currentTerm) d p (rf.becomeLeader rf.currentTerm) := by
  have hg : Grows g (g.elect p rf.currentTerm) := grows_elect hv hn
  have heq : rf.becomeLeader rf.currentTerm = { rf with
      state := .leader
      nextIndex := fun _ => rf.lastLogIndex + 1
      matchIndex := fun i => if i = rf.me then rf.lastLogIndex else 0 } := by
    simp [Raft.becomeLeader, hs]
  rw [heq]
  refine { hi with durable := { hi.durable with }, leads := ?_, led := ?_,
                   shape := ⟨hi.shape.base, hi.shape.log, hi.shape.baseTerm⟩,
                   committed := hi.committed.mono hg, acked := ?_ }
  · exact fun _ => ⟨_, elect_lead_self, rfl⟩
  · intro ld _ _ hc
    cases hc
  · intro _ q
    dsimp only
    split_ifs with hq
    · rw [hi.me] at hq
      subst hq
      rw [show (g.elect q rf.currentTerm).ack q rf.currentTerm = (g.log q).length from put_self _ _ _ _,
        hi.shape.lastLogIndex]
      exact le_max_right _ _
    · exact Nat.zero_le _

theorem RaftInv.leader_log (hi : RaftInv sm g d p rf)
    (hv : Valid LogEntry.term (Majority.quorums n) g) (hs : rf.state = .leader) :
    ∃ ld, g.lead rf.currentTerm = some ld ∧ ld.who = p ∧ g.log p = ld.log := by
  obtain ⟨ld, hl, hw⟩ := hi.leads hs
  refine ⟨ld, hl, hw, ?_⟩
  subst hw
  exact hv.lead_log _ ld hl hi.term

theorem start_leader (hs : rf.state = .leader) (hl : 0 < rf.log.length) (c : Option C) :
    (rf.start c).1 = { rf with
      log := rf.log ++ [(⟨rf.currentTerm, c⟩ : LogEntry C)]
      nextIndex := Function.update rf.nextIndex rf.me (rf.lastLogIndex + 1 + 1)
      matchIndex := Function.update rf.matchIndex rf.me (rf.lastLogIndex + 1) }.persist := by
  have hidx : rf.lastIncludedIndex + (rf.log.length + 1) - 1 = rf.lastLogIndex + 1 := by
    unfold Raft.lastLogIndex
    omega
  simp only [Raft.start, hs, ne_eq, not_true_eq_false, ↓reduceIte, ← hidx]
  simp [Raft.lastLogIndex]

theorem RaftInv.start (hi : RaftInv sm g d p rf)
    (hv : Valid LogEntry.term (Majority.quorums n) g) (hs : rf.state = .leader) (c : Option C) :
    RaftInv sm (g.extend p rf.currentTerm ⟨rf.currentTerm, c⟩) d p (rf.start c).1 := by
  obtain ⟨ld, hl, hw, hlog⟩ := hi.leader_log hv hs
  have hg : Grows g (g.extend p rf.currentTerm ⟨rf.currentTerm, c⟩) := grows_extend hv hl
  have hnew : (g.extend p rf.currentTerm ⟨rf.currentTerm, c⟩).log p =
      g.log p ++ [⟨rf.currentTerm, c⟩] := by
    rw [extend_log_self hl, hlog]
  have hpre : g.log p <+: (g.extend p rf.currentTerm ⟨rf.currentTerm, c⟩).log p := by
    rw [hnew]
    exact List.prefix_append _ _
  have hbase := hi.shape.base
  have hcommit := hi.commit_le
  rw [start_leader hs (by rw [hi.shape.length]; omega)]
  refine { hi with term := ?_, shape := ?_, durable := durable_persist _, voted := ?_, voter := ?_,
                   leads := ?_, led := ?_, commit_le := ?_, committed := ?_, snapshot := ?_,
                   acked := ?_ }
  · rw [extend_term hl]; exact hi.term
  · refine ⟨hbase.trans hpre.length_le, ?_, ?_⟩
    · change rf.log ++ [_] = ⟨termAt _ rf.lastIncludedIndex, none⟩ :: List.drop rf.lastIncludedIndex _
      rw [termAt_initial hpre hbase, hnew, List.drop_append_of_le_length hbase, hi.shape.log]
      rfl
    · change rf.lastIncludedTerm = termAt _ rf.lastIncludedIndex
      rw [termAt_initial hpre hbase]
      exact hi.shape.baseTerm
  · rw [extend_vote hl]; exact hi.voted
  · rw [extend_vote hl]; exact hi.voter
  · exact fun _ => ⟨_, extend_lead_self hl, hw⟩
  · intro _ _ _ hc
    change rf.state = _ at hc
    rw [hs] at hc
    cases hc
  · exact hcommit.trans hpre.length_le
  · change Sealed _ _ _ rf.currentTerm (List.take rf.commitIndex _)
    rw [take_initial hpre hcommit]
    exact hi.committed.mono hg
  · change rf.snapshot = image sm (List.take rf.lastIncludedIndex _)
    rw [take_initial hpre hbase]
    exact hi.snapshot
  · intro _ q
    change Function.update rf.matchIndex rf.me (rf.lastLogIndex + 1) q ≤
      max rf.commitIndex ((g.extend p rf.currentTerm _).ack q rf.currentTerm)
    rw [hi.me]
    by_cases hq : q = p
    · subst hq
      rw [Function.update_self, extend_ack hl, put_self, hi.shape.lastLogIndex, hlog]
      exact le_max_right _ _
    · rw [Function.update_of_ne hq]
      exact (hi.acked hs q).trans (max_le_max (le_refl _) (hg.ack q _))

end leader
end DistributedLabs.RaftHistory
