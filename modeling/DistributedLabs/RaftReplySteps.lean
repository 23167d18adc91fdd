import DistributedLabs.RaftLogSteps

set_option autoImplicit false

/-! Votes, elections, the leader's replies, the applier and a restart. -/
namespace DistributedLabs.RaftHistory
open RaftModel RaftCluster RaftShape TermLedger

variable {n : ℕ} {C S : Type} {sm : StateMachine C S} {g : History n C}
  {d : List (Delivery n C S)} {p : Fin n} {rf rf' : Raft n C S}

section votes

theorem observeTerm_outcome (hv : Valid LogEntry.term (Majority.quorums n) g)
    (hi : RaftInv sm g d p rf) (t : ℕ) :
    Outcome sm d p g (g.advance p (rf.observeTerm t).currentTerm) rf (rf.observeTerm t) := by
  have hob := hi.observeTerm (t := t) hv
  unfold Raft.observeTerm at hob ⊢
  split_ifs at hob ⊢ with hlt
  · exact Outcome.of_follower (by rw [hi.term]; exact hlt.le) hob rfl hlt.le rfl rfl
  · rw [hi.advance_eq]
    exact Outcome.refl hi

theorem requestVote_cases {args : RequestVoteArgs n} {reply : RequestVoteReply}
    (h : rf.requestVote args = some (rf', reply)) :
    (reply.voteGranted = false ∧ rf' = rf.observeTerm args.term) ∨
    (reply.voteGranted = true ∧ (rf.observeTerm args.term).currentTerm = args.term ∧
      (∃ last, (rf.observeTerm args.term).entryAt (rf.observeTerm args.term).lastLogIndex = some last ∧
        (last.term < args.lastLogTerm ∨ (args.lastLogTerm = last.term ∧
          (rf.observeTerm args.term).lastLogIndex ≤ args.lastLogIndex))) ∧
      ((rf.observeTerm args.term).votedFor = none ∨
        (rf.observeTerm args.term).votedFor = some args.candidateId) ∧
      rf' = { rf.observeTerm args.term with votedFor := some args.candidateId }.persist) := by
  have hge : args.term ≤ (rf.observeTerm args.term).currentTerm := by
    unfold Raft.observeTerm
    split_ifs with hlt
    · exact le_refl _
    · omega
  unfold Raft.requestVote at h
  dsimp only at h
  by_cases hlt : args.term < (rf.observeTerm args.term).currentTerm
  · rw [if_pos hlt] at h
    cases h
    exact .inl ⟨rfl, rfl⟩
  · rw [if_neg hlt] at h
    obtain ⟨last, hlast, h⟩ := Option.bind_eq_some_iff.mp h
    split_ifs at h with hup hfree
    · cases h
      exact .inr ⟨rfl, by omega, ⟨last, hlast, hup⟩, hfree, rfl⟩
    · cases h
      exact .inl ⟨rfl, rfl⟩
    · cases h
      exact .inl ⟨rfl, rfl⟩

theorem requestVote_outcome (hv : Valid LogEntry.term (Majority.quorums n) g)
    (hi : RaftInv sm g d p rf) {args : RequestVoteArgs n} {reply : RequestVoteReply}
    (h : rf.requestVote args = some (rf', reply)) :
    (reply.voteGranted = false ∧ Outcome sm d p g (g.advance p rf'.currentTerm) rf rf') ∨
    (reply.voteGranted = true ∧ rf'.currentTerm = args.term ∧ rf'.votedFor = some args.candidateId ∧
      (lastRank LogEntry.term (g.log p) < args.lastLogTerm ∨
        (lastRank LogEntry.term (g.log p) = args.lastLogTerm ∧
          (g.log p).length ≤ args.lastLogIndex)) ∧
      Outcome sm d p g ((g.advance p args.term).castVote p args.term args.candidateId) rf rf') := by
  have o := observeTerm_outcome hv hi args.term
  rcases requestVote_cases h with ⟨hr, rfl⟩ | ⟨hr, hterm, ⟨last, hlast, hup⟩, hfree, rfl⟩
  · exact .inl ⟨hr, o⟩
  · have hlog : (g.advance p (rf.observeTerm args.term).currentTerm).log p = g.log p := rfl
    have hlt := (o.inv.shape.of_entryAt hlast).2.2
    rw [o.inv.shape.lastLogIndex, hlog] at hlt hup
    rw [← lastRank_eq_termAt] at hlt
    rw [hlt] at hup
    have hinv : ∀ t, (rf.observeTerm args.term).currentTerm = t →
        RaftInv sm ((g.advance p t).castVote p t args.candidateId) d p
          { rf.observeTerm args.term with votedFor := some args.candidateId }.persist := by
      rintro _ rfl
      exact o.inv.castVote hfree
    rw [hterm] at o
    obtain ⟨_, hcl, _, _⟩ := castVote_frame (g.advance p args.term) p args.term args.candidateId
    refine .inr ⟨hr, hterm, rfl, hup.imp_right fun x => ⟨x.1.symm, x.2⟩, ?_⟩
    refine ⟨o.acts.tail (.castVote p _ _ (o.inv.term.trans hterm)), ?_, hinv _ hterm, o.term, ?_, o.commit,
      o.applied⟩
    · exact fun q hq => (o.others q hq).trans (untouched_castVote hq _ _)
    · intro hc
      obtain ⟨hs, ht, hl⟩ := o.candidate hc
      exact ⟨hs, ht, by rw [hcl]; exact hl⟩

/-- No term has a second leader: the votes counted meet those of the first. -/
theorem RaftInv.lead_none (hi : RaftInv sm g d p rf)
    (hv : Valid LogEntry.term (Majority.quorums n) g) (hs : rf.state = .candidate)
    {A : Finset (Fin n)} (hA : n / 2 < A.card)
    (hall : ∀ v ∈ A, ∃ l, g.vote v rf.currentTerm = some (p, l)) : g.lead rf.currentTerm = none := by
  cases hl : g.lead rf.currentTerm with
  | none => rfl
  | some ld =>
    obtain ⟨B, hB, hwon⟩ := hv.won _ ld hl
    obtain ⟨v, hvA, hvB⟩ := (Majority.quorums n).meet A B hA (Majority.votes_commits hB)
    obtain ⟨l, hvote⟩ := hall v hvA
    obtain ⟨l', hvote', _⟩ := hwon v hvB
    have hsame := hvote.symm.trans hvote'
    cases hsame
    exact absurd hs (hi.led ld hl rfl)

theorem becomeLeader_outcome (hv : Valid LogEntry.term (Majority.quorums n) g)
    (hi : RaftInv sm g d p rf) (hs : rf.state = .candidate) (A : Finset (Fin n))
    (hA : n / 2 < A.card)
    (hall : ∀ v ∈ A, ∃ l, g.vote v rf.currentTerm = some (p, l) ∧
      UpToDate LogEntry.term (g.log p) l) :
    Outcome sm d p g (g.elect p rf.currentTerm) rf (rf.becomeLeader rf.currentTerm) := by
  have hn : g.lead rf.currentTerm = none := by
    apply hi.lead_none hv hs hA
    intro v hvA
    obtain ⟨l, hl, _⟩ := hall v hvA
    exact ⟨l, hl⟩
  refine ⟨.single (.elect p _ A hi.term hn hA hall), fun q hq => untouched_elect hq _,
    hi.becomeLeader hv hs hn, ?_, ?_, ?_, ?_⟩
  all_goals simp [Raft.becomeLeader, hs]

end votes

section leader

theorem start_follower (hs : rf.state ≠ .leader) (c : Option C) : (rf.start c).1 = rf := by
  simp [Raft.start, hs]

theorem start_outcome (hv : Valid LogEntry.term (Majority.quorums n) g)
    (hi : RaftInv sm g d p rf) (hs : rf.state = .leader) (c : Option C) :
    Outcome sm d p g (g.extend p rf.currentTerm ⟨rf.currentTerm, c⟩) rf (rf.start c).1 := by
  obtain ⟨ld, hl, hw, _⟩ := hi.leader_log hv hs
  have hinv := hi.start hv hs c
  rw [start_leader hs (by rw [hi.shape.length]; omega)] at hinv ⊢
  refine ⟨.single (.extend p _ _ ld hi.term hl hw rfl), fun q hq => untouched_extend hq hl hw _,
    hinv, le_refl _, ?_, le_refl _, rfl⟩
  intro hc
  exact absurd (hs.symm.trans hc) (by decide)

theorem indices_outcome (hi : RaftInv sm g d p rf) (next known : Fin n → ℕ)
    (hk : rf.state = .leader → ∀ q, known q ≤ max rf.commitIndex (g.ack q rf.currentTerm)) :
    Outcome sm d p g g rf { rf with nextIndex := next, matchIndex := known } :=
  ⟨.refl, fun q _ => Untouched.refl g q,
    { hi with shape := ⟨hi.shape.base, hi.shape.log, hi.shape.baseTerm⟩,
              durable := { hi.durable with }, acked := hk },
    le_refl _, fun hc => ⟨hc, rfl, rfl⟩, le_refl _, rfl⟩

theorem raised_acked (hi : RaftInv sm g d p rf) {peer : Fin n} {m : ℕ}
    (hm : m ≤ max rf.commitIndex (g.ack peer rf.currentTerm)) (hs : rf.state = .leader) (q : Fin n) :
    (if rf.matchIndex peer < m then Function.update rf.matchIndex peer m else rf.matchIndex) q ≤
      max rf.commitIndex (g.ack q rf.currentTerm) := by
  split_ifs
  · by_cases hq : q = peer
    · subst hq
      rw [Function.update_self]
      exact hm
    · rw [Function.update_of_ne hq]
      exact hi.acked hs q
  · exact hi.acked hs q

theorem advanceCommitIndex_cases (h : rf.advanceCommitIndex = some rf') :
    rf' = rf ∨ ∃ N e, rf.state = .leader ∧
      ((List.ofFn rf.matchIndex).insertionSort (· ≤ ·))[n / 2]? = some N ∧
      rf.commitIndex < N ∧ N ≤ rf.lastLogIndex ∧ rf.entryAt N = some e ∧
      e.term = rf.currentTerm ∧ rf' = { rf with commitIndex := N } := by
  unfold Raft.advanceCommitIndex at h
  by_cases hs : rf.state = .leader
  · rw [if_neg (by simpa using hs)] at h
    obtain ⟨N, hN, h⟩ := Option.bind_eq_some_iff.mp h
    split_ifs at h with hlt
    · obtain ⟨e, he, h⟩ := Option.bind_eq_some_iff.mp h
      split_ifs at h with ht
      · exact .inr ⟨N, e, hs, hN, hlt.1, hlt.2, he, ht, (Option.some.inj h).symm⟩
      · exact .inl (Option.some.inj h).symm
    · exact .inl (Option.some.inj h).symm
  · rw [if_pos hs] at h
    exact .inl (Option.some.inj h).symm

theorem advanceCommitIndex_outcome (hv : Valid LogEntry.term (Majority.quorums n) g)
    (hi : RaftInv sm g d p rf) (h : rf.advanceCommitIndex = some rf') :
    Outcome sm d p g g rf rf' ∧ rf'.currentTerm = rf.currentTerm ∧ rf'.state = rf.state := by
  rcases advanceCommitIndex_cases h with rfl | ⟨N, e, hs, hN, hlt, hle, he, ht, rfl⟩
  · exact ⟨Outcome.refl hi, rfl, rfl⟩
  · obtain ⟨ld, hl, hw, hlog⟩ := hi.leader_log hv hs
    have hbase := hi.base_le
    rw [hi.shape.lastLogIndex] at hle
    rw [hi.shape.entryAt_above (by omega), hlog] at he
    -- the median of `matchIndex` is acknowledged by a commit quorum
    have hc : Committed LogEntry.term (Majority.quorums n) g rf.currentTerm N := by
      refine ⟨ld, e, _, hl, by omega, he, ht, Majority.card_of_sorted rf.matchIndex (n / 2) N hN, ?_⟩
      intro q hq
      have hq' : N ≤ rf.matchIndex q := (Finset.mem_filter.mp hq).2
      have := hi.acked hs q
      omega
    refine ⟨⟨.refl, fun q _ => Untouched.refl g q, ?_, le_refl _, fun hc => ⟨hc, rfl, rfl⟩, hlt.le,
      rfl⟩, rfl, rfl⟩
    refine { hi with shape := ⟨hi.shape.base, hi.shape.log, hi.shape.baseTerm⟩,
                     durable := { hi.durable with }, base_le := hbase.trans hlt.le,
                     commit_le := hle, committed := ?_, applied_le := hi.applied_le.trans hlt.le,
                     acked := ?_ }
    · exact .inr ⟨_, N, ld, le_refl _, hc, hl, by rw [hlog]⟩
    · exact fun hs q => (hi.acked hs q).trans (max_le_max hlt.le (le_refl _))

theorem Outcome.trans_refl {f : Raft n C S} (a : Outcome sm d p g g rf f)
    (b : Outcome sm d p g g f rf') : Outcome sm d p g g rf rf' := by
  refine ⟨.refl, b.others, b.inv, a.term.trans b.term, ?_, a.commit.trans b.commit,
    b.applied.trans a.applied⟩
  intro hc
  obtain ⟨hs, ht, _⟩ := b.candidate hc
  obtain ⟨hs', ht', _⟩ := a.candidate hs
  exact ⟨hs', ht.trans ht', rfl⟩

theorem toFollower_outcome (hv : Valid LogEntry.term (Majority.quorums n) g)
    (hi : RaftInv sm g d p rf) {t : ℕ} (ht : rf.currentTerm < t) :
    Outcome sm d p g (g.advance p t) rf (rf.toFollower t) :=
  Outcome.of_follower (by rw [hi.term]; exact ht.le) (hi.toFollower hv ht) rfl ht.le rfl rfl

theorem backupNextIndex_eq {peer : Fin n} {reply : AppendEntriesReply}
    (h : rf.backupNextIndex peer reply = some rf') :
    ∃ next, rf' = { rf with nextIndex := next, matchIndex := rf.matchIndex } := by
  unfold Raft.backupNextIndex at h
  obtain ⟨next, _, h⟩ := Option.bind_eq_some_iff.mp h
  exact ⟨_, (Option.some.inj h).symm⟩

theorem appendReply_outcome (hv : Valid LogEntry.term (Majority.quorums n) g)
    (hi : RaftInv sm g d p rf) {peer : Fin n} {args : AppendEntriesArgs n C}
    {reply : AppendEntriesReply}
    (hack : reply.success = true → args.prevLogIndex + args.entries.length ≤ g.ack peer args.term)
    (h : rf.appendReply peer args reply = some rf') :
    Outcome sm d p g (g.advance p rf'.currentTerm) rf rf' ∧
      (rf'.state = .leader → rf.state = .leader) := by
  have still : ∀ f, Outcome sm d p g g rf f → f.currentTerm = rf.currentTerm →
      Outcome sm d p g (g.advance p f.currentTerm) rf f := by
    intro f o ht
    rw [ht, hi.advance_eq]
    exact o
  unfold Raft.appendReply at h
  split_ifs at h with hskip hterm hsucc hback
  · cases h
    exact ⟨still _ (Outcome.refl hi) rfl, fun hs => hs⟩
  · cases h
    exact ⟨toFollower_outcome hv hi hterm, fun hs => by cases hs⟩
  · have hle : args.prevLogIndex + args.entries.length ≤
        max rf.commitIndex (g.ack peer rf.currentTerm) := by
      have : rf.currentTerm = args.term := by tauto
      rw [this]
      exact (hack hsucc).trans (le_max_right _ _)
    have o := indices_outcome hi
      (if rf.nextIndex peer < args.prevLogIndex + args.entries.length + 1 then
        Function.update rf.nextIndex peer (args.prevLogIndex + args.entries.length + 1)
        else rf.nextIndex) _ (raised_acked hi hle)
    obtain ⟨o', ht, hs⟩ := advanceCommitIndex_outcome hv o.inv h
    exact ⟨still _ (o.trans_refl o') ht, fun hl => by rw [hs] at hl; exact hl⟩
  · obtain ⟨next, rfl⟩ := backupNextIndex_eq h
    exact ⟨still _ (indices_outcome hi next rf.matchIndex hi.acked) rfl, fun hs => hs⟩
  · cases h
    exact ⟨still _ (Outcome.refl hi) rfl, fun hs => hs⟩

theorem snapshotReply_outcome (hv : Valid LogEntry.term (Majority.quorums n) g)
    (hi : RaftInv sm g d p rf) (peer : Fin n) {args : InstallSnapshotArgs n S}
    (reply : InstallSnapshotReply) (hc : args.lastIncludedIndex ≤ rf.commitIndex) :
    Outcome sm d p g (g.advance p (rf.snapshotReply peer args reply).currentTerm) rf
      (rf.snapshotReply peer args reply) ∧
      ((rf.snapshotReply peer args reply).state = .leader → rf.state = .leader) := by
  unfold Raft.snapshotReply
  by_cases hskip : rf.state ≠ .leader ∨ rf.currentTerm ≠ args.term
  · rw [if_pos hskip, hi.advance_eq]
    exact ⟨Outcome.refl hi, fun hs => hs⟩
  · rw [if_neg hskip]
    by_cases hterm : rf.currentTerm < reply.term
    · rw [if_pos hterm]
      exact ⟨toFollower_outcome hv hi hterm, fun hs => by cases hs⟩
    · rw [if_neg hterm]
      refine ⟨?_, fun hs => hs⟩
      dsimp only
      rw [hi.advance_eq]
      exact indices_outcome hi _ _ (raised_acked hi (hc.trans (le_max_left _ _)))

end leader

section service

theorem Stream.append {i j k : ℕ} {ms ms' : List (ApplyMsg C S)} (a : Stream i ms j)
    (b : Stream j ms' k) : Stream i (ms ++ ms') k := by
  induction ms generalizing i with
  | nil =>
    cases a
    exact b
  | cons m ms ih =>
    cases m with
    | command c l => exact ⟨a.1, ih a.2⟩
    | snapshot data t l => exact ⟨a.1, ih a.2⟩

theorem RaftInv.decided (hi : RaftInv sm g d p rf) {k : ℕ} (hk : k ≤ rf.commitIndex) :
    Decided g ((g.log p).take k) := by
  refine ⟨rf.currentTerm, hi.committed.restrict ?_⟩
  rw [← Nat.min_eq_left hk, ← List.take_take]
  exact List.take_prefix _ _

theorem applier_cases {msg : ApplyMsg C S} (h : rf.applier = some (rf', msg)) :
    (rf.pendingSnapshot = true ∧
      rf' = { rf with lastApplied := rf.pendingSnapshotIndex, pendingSnapshot := false } ∧
      msg = .snapshot rf.pendingSnapshotData rf.pendingSnapshotTerm rf.pendingSnapshotIndex) ∨
    (rf.pendingSnapshot = false ∧ rf' = { rf with lastApplied := rf.lastApplied + 1 } ∧
      ∃ e, rf.entryAt (rf.lastApplied + 1) = some e ∧
        msg = .command e.command (rf.lastApplied + 1)) := by
  unfold Raft.applier at h
  split_ifs at h with hp
  · cases h
    exact .inl ⟨hp, rfl, rfl⟩
  · obtain ⟨e, he, h⟩ := Option.bind_eq_some_iff.mp h
    cases h
    exact .inr ⟨by simpa using hp, rfl, e, he, rfl⟩

theorem applier_step (hi : RaftInv sm g d p rf) (hready : rf.applierReady = true)
    {msg : ApplyMsg C S} (h : rf.applier = some (rf', msg)) :
    RaftInv sm g d p rf' ∧ MsgInv sm g d msg ∧ Stream rf.lastApplied [msg] rf'.lastApplied ∧
      rf'.currentTerm = rf.currentTerm ∧ rf'.state = rf.state ∧
      rf'.commitIndex = rf.commitIndex := by
  have hbase := hi.base_le
  have hlen := hi.commit_le
  rcases applier_cases h with ⟨hp, rfl, rfl⟩ | ⟨hp, rfl, e, he, rfl⟩
  · obtain ⟨hidx, hlt, hdata⟩ := hi.pending hp
    refine ⟨?_, ⟨by omega, by rw [hidx]; exact hi.reached, _, hi.decided hbase, ?_, ?_⟩, ⟨by omega, rfl⟩,
      rfl, rfl, rfl⟩
    · refine { hi with shape := ⟨hi.shape.base, hi.shape.log, hi.shape.baseTerm⟩,
                       durable := { hi.durable with }, applied_le := by rw [hidx]; exact hbase,
                       pending := fun hc => (by cases hc), current := fun _ => hidx.ge }
    · rw [List.length_take]
      omega
    · rw [hdata, hi.snapshot, image_of_pos]
      rw [List.length_take]
      omega
  · have hcur := hi.current hp
    have hla : rf.lastApplied < rf.commitIndex := by simpa [Raft.applierReady, hp] using hready
    rw [hi.shape.entryAt_above (by omega)] at he
    refine ⟨?_, ⟨by omega, _, e, hi.decided (le_refl _), ?_, rfl⟩, ⟨rfl, rfl⟩, rfl, rfl, rfl⟩
    · refine { hi with shape := ⟨hi.shape.base, hi.shape.log, hi.shape.baseTerm⟩,
                       durable := { hi.durable with }, applied_le := hla,
                       pending := fun hc => absurd (hp.symm.trans hc) nofun,
                       current := fun _ => hcur.trans (Nat.le_succ _) }
    · rw [List.getElem?_take_of_lt (by omega)]
      exact he

theorem make_frame (me : Fin n) (persister : Persister n C S) :
    (Raft.make me persister).me = me ∧ (Raft.make me persister).persister = persister ∧
    (Raft.make me persister).state = .follower ∧
    (Raft.make me persister).commitIndex = (Raft.make me persister).lastIncludedIndex ∧
    (Raft.make me persister).lastApplied = (Raft.make me persister).lastIncludedIndex ∧
    (Raft.make me persister).pendingSnapshot = false := by
  obtain ⟨state, snapshot⟩ := persister
  cases state <;> exact ⟨rfl, rfl, rfl, rfl, rfl, rfl⟩

/-- A restart keeps the durable part and forgets how far the log was committed. -/
theorem RaftInv.make (hi : RaftInv sm g d p rf) : RaftInv sm g d p (Raft.make p rf.persister) := by
  obtain ⟨hme, hper, hst, hci, hla, hpend⟩ := make_frame p rf.persister
  obtain ⟨dt, dv, dl, ds, di, dlt⟩ := hi.durable
  rw [hi.me] at dt dv dl ds di dlt
  refine { me := hme, term := by rw [dt]; exact hi.term, shape := ?_, durable := ?_, voted := ?_,
           voter := ?_, leads := ?_, led := ?_, base_le := hci.ge, commit_le := ?_, committed := ?_,
           applied_le := by rw [hla, hci], pending := ?_, current := fun _ => hla.ge,
           snapshot := by rw [ds, di]; exact hi.snapshot, reached := by rw [di]; exact hi.reached,
           acked := ?_ }
  · exact ⟨by rw [di]; exact hi.shape.base, by rw [dl, di]; exact hi.shape.log,
      by rw [dlt, di]; exact hi.shape.baseTerm⟩
  · constructor <;> rw [hme, hper]
  · rw [dt, dv]; exact hi.voted
  · rw [dt, dv]; exact hi.voter
  · intro hs
    rw [hst] at hs
    cases hs
  · intro _ _ _ hs
    rw [hst] at hs
    cases hs
  · rw [hci, di]; exact hi.shape.base
  · rw [hci, di, dt]
    apply hi.committed.restrict
    rw [← Nat.min_eq_left hi.base_le, ← List.take_take]
    exact List.take_prefix _ _
  · intro hc
    rw [hpend] at hc
    cases hc
  · intro hs
    rw [hst] at hs
    cases hs

end service
end DistributedLabs.RaftHistory
