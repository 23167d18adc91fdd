import DistributedLabs.RaftPeerSteps

set_option autoImplicit false

/-! The sections that change a log: `AppendEntries`, `InstallSnapshot` and `Snapshot`. -/
namespace DistributedLabs.RaftHistory
open RaftModel RaftCluster RaftShape TermLedger

variable {n : ℕ} {C S : Type} {sm : StateMachine C S} {g : History n C}
  {d : List (Delivery n C S)} {p : Fin n} {rf rf' : Raft n C S}

theorem appendEntries_cases {args : AppendEntriesArgs n C} {reply : AppendEntriesReply}
    (h : rf.appendEntries args = some (rf', reply)) :
    (args.term < rf.currentTerm ∧ rf' = rf ∧ reply.success = false) ∨
    (rf.currentTerm ≤ args.term ∧ rf' = rf.follow args.term ∧ reply.success = false) ∨
    (rf.currentTerm ≤ args.term ∧ reply.success = true ∧ ∃ prev merged,
      (rf.follow args.term).entryAt args.prevLogIndex = some prev ∧
      prev.term = args.prevLogTerm ∧
      (rf.follow args.term).mergeEntries args.prevLogIndex 0 args.entries = some merged ∧
      rf' = (if 0 < args.entries.length then merged.persist else merged).followCommit
        args.leaderCommit) := by
  unfold Raft.appendEntries at h
  dsimp only at h
  by_cases hterm : args.term < rf.currentTerm
  · rw [if_pos hterm] at h
    cases h
    exact .inl ⟨hterm, rfl, rfl⟩
  rw [if_neg hterm] at h
  have hle : rf.currentTerm ≤ args.term := by omega
  by_cases hbase : args.prevLogIndex < (rf.follow args.term).lastIncludedIndex
  · rw [if_pos hbase] at h
    cases h
    exact .inr (.inl ⟨hle, rfl, rfl⟩)
  rw [if_neg hbase] at h
  by_cases hlast : (rf.follow args.term).lastLogIndex < args.prevLogIndex
  · rw [if_pos hlast] at h
    cases h
    exact .inr (.inl ⟨hle, rfl, rfl⟩)
  rw [if_neg hlast] at h
  obtain ⟨prev, hprev, h⟩ := Option.bind_eq_some_iff.mp h
  by_cases hne : prev.term ≠ args.prevLogTerm
  · rw [if_pos hne] at h
    obtain ⟨x, _, h⟩ := Option.bind_eq_some_iff.mp h
    cases h
    exact .inr (.inl ⟨hle, rfl, rfl⟩)
  · rw [if_neg hne] at h
    obtain ⟨merged, hm, h⟩ := Option.bind_eq_some_iff.mp h
    cases h
    exact .inr (.inr ⟨hle, rfl, prev, merged, hprev, not_not.mp hne, hm, rfl⟩)

theorem appendEntries_frame {args : AppendEntriesArgs n C} {reply : AppendEntriesReply}
    (h : rf.appendEntries args = some (rf', reply)) (hle : rf.currentTerm ≤ args.term) :
    rf'.state = .follower ∧ rf'.currentTerm = args.term ∧ rf'.lastApplied = rf.lastApplied ∧
      rf'.lastIncludedIndex = rf.lastIncludedIndex := by
  have hfollow : (rf.follow args.term).state = .follower ∧
      (rf.follow args.term).currentTerm = args.term ∧
      (rf.follow args.term).lastApplied = rf.lastApplied ∧
      (rf.follow args.term).lastIncludedIndex = rf.lastIncludedIndex :=
    ⟨follow_state, follow_term hle, follow_applied rf _, follow_base rf _⟩
  rcases appendEntries_cases h with ⟨hlt, _⟩ | ⟨_, rfl, _⟩ | ⟨_, _, e, merged, _, _, hm, rfl⟩
  · omega
  · exact hfollow
  · rw [mergeEntries_rest hm]
    unfold Raft.followCommit Raft.persist
    split_ifs <;> exact hfollow

/-- The two histories that meet in a message agree up to a position of equal terms. -/
theorem take_eq_of_termAt {l m : List (LogEntry C)} (hl : Backed LogEntry.term g l)
    (hm : Backed LogEntry.term g m)
    {i : ℕ} (hil : i ≤ l.length) (him : i ≤ m.length) (ht : termAt l i = termAt m i) :
    l.take i = m.take i := by
  cases i with
  | zero => simp
  | succ i =>
    have ha := List.getElem?_eq_getElem (l := l) (i := i) (by omega)
    have hb := List.getElem?_eq_getElem (l := m) (i := i) (by omega)
    rw [termAt_of_getElem? ha, termAt_of_getElem? hb] at ht
    exact hl.matching hm ha hb ht

section accept
variable {t : ℕ} {ld : Leader (Fin n) (LogEntry C)}

/-- A follower in the leader's term that adopts `m` keeps what it has committed. -/
theorem RaftInv.adopt_commit (hi : RaftInv sm g d p rf)
    (hv : Valid LogEntry.term (Majority.quorums n) g) {m : List (LogEntry C)}
    (hl : g.lead rf.currentTerm = some ld) (hm : m <+: ld.log) :
    (g.log p).take rf.commitIndex <+: adopt (g.log p) m :=
  hi.committed.adopt hv ⟨_, List.take_append_drop _ _⟩ (le_refl _) hl hm

theorem take_commit {k : ℕ} {l m : List (LogEntry C)} (hk : k ≤ l.length) (h : l.take k <+: m)
    {i : ℕ} (hi : i ≤ k) : m.take i = l.take i := by
  rw [take_initial h (by rw [List.length_take]; omega), List.take_take, Nat.min_eq_left hi]

theorem RaftInv.merge (hi : RaftInv sm g d p rf)
    (hv : Valid LogEntry.term (Majority.quorums n) g) (hs : rf.state = .follower)
    {m : List (LogEntry C)} {prev : ℕ} {e : LogEntry C} {merged : Raft n C S}
    (hl : g.lead rf.currentTerm = some ld) (hm : m <+: ld.log) (hpm : prev ≤ m.length)
    (he : rf.entryAt prev = some e) (ht : e.term = termAt m prev)
    (hmerge : rf.mergeEntries prev 0 (m.drop prev) = some merged) :
    RaftInv sm (g.accept p rf.currentTerm m) d p
        (if 0 < (m.drop prev).length then merged.persist else merged) ∧
      merged = { rf with log := merged.log } := by
  have hg : Grows g (g.accept p rf.currentTerm m) := grows_accept
  have hbm : Backed LogEntry.term g m := (hv.backed_lead _ _ hl).restrict hm
  obtain ⟨hpb, hpl, het⟩ := hi.shape.of_entryAt he
  have heq := take_eq_of_termAt (hv.backed_log p) hbm hpl hpm (het.symm.trans ht)
  have hmatch : Matching LogEntry.term (g.log p) m :=
    fun _ _ _ ha hb hr => (hv.backed_log p).matching hbm ha hb hr
  obtain ⟨x, hx, hshape, hrest⟩ := hi.shape.mergeEntries hpb hpl hmatch heq
  rw [hmerge] at hx
  cases hx
  have hkeep := hi.adopt_commit hv hl hm
  have hlen := hkeep.length_le
  rw [List.length_take, Nat.min_eq_left hi.commit_le] at hlen
  -- the saved state is either the new one or, with no entries, still the current one
  have inv : ∀ saved : Persister n C S,
      Durable { rf with log := merged.log, persister := saved } →
      RaftInv sm (g.accept p rf.currentTerm m) d p
        { rf with log := merged.log, persister := saved } := by
    intro saved hdur
    refine { hi with durable := hdur, shape := ?_, leads := ?_, led := ?_, commit_le := ?_,
                     committed := ?_, snapshot := ?_, acked := ?_ }
    · rw [accept_log_self]
      rw [hrest] at hshape
      exact ⟨hshape.base, hshape.log, hshape.baseTerm⟩
    · intro hc
      exact absurd (hs.symm.trans hc) (by decide)
    · intro _ _ _ hc
      exact absurd (hs.symm.trans hc) (by decide)
    · rw [accept_log_self]
      exact hlen
    · rw [accept_log_self, take_commit hi.commit_le hkeep (le_refl _)]
      exact hi.committed.mono hg
    · rw [accept_log_self, take_commit hi.commit_le hkeep hi.base_le]
      exact hi.snapshot
    · intro hc
      exact absurd (hs.symm.trans hc) (by decide)
  refine ⟨?_, hrest⟩
  split_ifs with hpos
  · rw [hrest]
    exact inv _ (durable_persist _)
  · have hnil : m.drop prev = [] := List.length_eq_zero_iff.mp (by omega)
    rw [hnil] at hmerge
    cases hmerge
    exact inv _ hi.durable

theorem RaftInv.followCommit (hi : RaftInv sm g d p rf) (lc : ℕ) (hlc : lc ≤ (g.log p).length)
    (hs : Sealed LogEntry.term (Majority.quorums n) g rf.currentTerm ((g.log p).take lc)) :
    RaftInv sm g d p (rf.followCommit lc) ∧ rf.commitIndex ≤ (rf.followCommit lc).commitIndex := by
  have hmin : (if lc < rf.lastLogIndex then lc else rf.lastLogIndex) = lc := by
    rw [hi.shape.lastLogIndex]
    split_ifs <;> omega
  unfold Raft.followCommit
  rw [hmin]
  split_ifs with hlt
  · refine ⟨?_, hlt.le⟩
    refine { hi with shape := ⟨hi.shape.base, hi.shape.log, hi.shape.baseTerm⟩,
                     durable := { hi.durable with }, base_le := hi.base_le.trans hlt.le,
                     commit_le := hlc, committed := hs, applied_le := hi.applied_le.trans hlt.le,
                     acked := ?_ }
    intro hl q
    exact (hi.acked hl q).trans (max_le_max hlt.le (le_refl _))
  · exact ⟨hi, le_refl _⟩

theorem followCommit_eq (rf : Raft n C S) (lc : ℕ) : rf.followCommit lc = { rf with
    commitIndex := if rf.commitIndex < lc then min lc rf.lastLogIndex else rf.commitIndex } := by
  unfold Raft.followCommit
  split_ifs with _ hlt
  · rw [Nat.min_eq_left hlt.le]
  · rw [Nat.min_eq_right (not_lt.mp hlt)]
  · rfl

@[simp] theorem followCommit_log (rf : Raft n C S) (lc : ℕ) : (rf.followCommit lc).log = rf.log := by
  rw [followCommit_eq]

@[simp] theorem followCommit_base (rf : Raft n C S) (lc : ℕ) :
    (rf.followCommit lc).lastIncludedIndex = rf.lastIncludedIndex := by
  rw [followCommit_eq]

@[simp] theorem followCommit_term (rf : Raft n C S) (lc : ℕ) :
    (rf.followCommit lc).currentTerm = rf.currentTerm := by
  rw [followCommit_eq]

@[simp] theorem followCommit_state (rf : Raft n C S) (lc : ℕ) :
    (rf.followCommit lc).state = rf.state := by
  rw [followCommit_eq]

@[simp] theorem followCommit_applied (rf : Raft n C S) (lc : ℕ) :
    (rf.followCommit lc).lastApplied = rf.lastApplied := by
  rw [followCommit_eq]

/-- The entries of an accepted message, as a stretch of its sender's log. -/
theorem appendEntries_accepted (hv : Valid LogEntry.term (Majority.quorums n) g)
    (hi : RaftInv sm g d p rf) (hs : rf.state = .follower) {m : List (LogEntry C)} {prev : ℕ}
    (lc : ℕ) {e : LogEntry C} {merged : Raft n C S} {caller : Fin n}
    (hf : FromLeader g rf.currentTerm caller p ld) (hm : m <+: ld.log) (hpm : prev ≤ m.length)
    (he : rf.entryAt prev = some e) (ht : e.term = termAt m prev)
    (hmerge : rf.mergeEntries prev 0 (m.drop prev) = some merged) (hlc : lc ≤ m.length)
    (hsealed : Sealed LogEntry.term (Majority.quorums n) g rf.currentTerm (m.take lc)) :
    Outcome sm d p g (g.accept p rf.currentTerm m) rf
      ((if 0 < (m.drop prev).length then merged.persist else merged).followCommit lc) := by
  obtain ⟨hinv, hrest⟩ := hi.merge hv hs hf.lead hm hpm he ht hmerge
  obtain ⟨x, hx⟩ : ∃ x, x = if 0 < (m.drop prev).length then merged.persist else merged := ⟨_, rfl⟩
  have hframe : x.currentTerm = rf.currentTerm ∧ x.state = rf.state ∧
      x.commitIndex = rf.commitIndex ∧ x.lastApplied = rf.lastApplied := by
    rw [hx, hrest]
    split_ifs <;> exact ⟨rfl, rfl, rfl, rfl⟩
  rw [← hx] at hinv ⊢
  obtain ⟨hct, hst, hci, hla⟩ := hframe
  have hpre : m <+: (g.accept p rf.currentTerm m).log p := by
    rw [accept_log_self]
    exact prefix_adopt _ _
  obtain ⟨hfin, hcommit⟩ := hinv.followCommit lc (hlc.trans hpre.length_le) (by
    rw [hct, take_initial hpre hlc]
    exact hsealed.mono grows_accept)
  refine ⟨.single (.accept p _ m ld hi.term hf.lead (by rw [hf.who]; exact hf.other) hm),
    fun _ hq => untouched_accept hq _ _, hfin, ?_, ?_, hci.ge.trans hcommit, ?_⟩
  · rw [followCommit_term, hct]
  · intro hc
    rw [followCommit_state, hst, hs] at hc
    cases hc
  · rw [followCommit_applied, hla]

theorem Outcome.after_follow {h : History n C} {t : ℕ}
    (acc : Outcome sm d p (g.advance p t) h (rf.follow t) rf') (hi : RaftInv sm g d p rf)
    (hle : rf.currentTerm ≤ t) : Outcome sm d p g h rf rf' := by
  have hterm := acc.term
  rw [follow_term hle] at hterm
  refine ⟨.head (.advance p t (by rw [hi.term]; exact hle)) acc.acts, ?_, acc.inv,
    hle.trans hterm, ?_, (follow_commit rf t).ge.trans acc.commit,
    acc.applied.trans (follow_applied rf t)⟩
  · exact fun q hq => (untouched_advance hq _).trans (acc.others q hq)
  · intro hc
    have hst := acc.candidate hc
    rw [follow_state] at hst
    exact absurd hst.1 (by decide)

theorem appendEntries_outcome (hv : Valid LogEntry.term (Majority.quorums n) g)
    (hi : RaftInv sm g d p rf) {args : AppendEntriesArgs n C} {reply : AppendEntriesReply}
    {caller : Fin n} (hf : FromLeader g args.term caller p ld)
    (hlen : args.prevLogIndex + args.entries.length ≤ ld.log.length)
    (hent : args.entries =
      (ld.log.take (args.prevLogIndex + args.entries.length)).drop args.prevLogIndex)
    (hterm : args.prevLogTerm = termAt ld.log args.prevLogIndex)
    (hlc : args.leaderCommit ≤ args.prevLogIndex + args.entries.length)
    (hs : Sealed LogEntry.term (Majority.quorums n) g args.term (ld.log.take args.leaderCommit))
    (h : rf.appendEntries args = some (rf', reply)) :
    (reply.success = false ∧
      Outcome sm d p g (g.advance p rf'.currentTerm) rf rf') ∨
    (reply.success = true ∧ rf'.currentTerm = args.term ∧
      Outcome sm d p g ((g.advance p args.term).accept p args.term
        (ld.log.take (args.prevLogIndex + args.entries.length))) rf rf') := by
  rcases appendEntries_cases h with ⟨_, rfl, hr⟩ | ⟨hle, rfl, hr⟩ | ⟨hle, hr, e, merged, he, het, hm, rfl⟩
  · refine .inl ⟨hr, ?_⟩
    rw [hi.advance_eq]
    exact Outcome.refl hi
  · refine .inl ⟨hr, ?_⟩
    rw [follow_term hle]
    exact Outcome.of_follower (by rw [hi.term]; exact hle) (hi.follow hv hle) follow_state
      (by rw [follow_term hle]; exact hle) (follow_commit rf _) (follow_applied rf _)
  · have hle' : g.term p ≤ args.term := by rw [hi.term]; exact hle
    have hfol := hi.follow hv hle
    have hft : (rf.follow args.term).currentTerm = args.term := follow_term hle
    have hg := grows_advance hle'
    have hml : (ld.log.take (args.prevLogIndex + args.entries.length)).length =
        args.prevLogIndex + args.entries.length := by
      rw [List.length_take]
      omega
    have acc := appendEntries_accepted (valid_advance hv hle') hfol follow_state args.leaderCommit
      (by rw [hft]; exact ⟨hf.lead, hf.who, hf.other⟩)
      ⟨_, List.take_append_drop (args.prevLogIndex + args.entries.length) ld.log⟩ (by omega) he
      (by rw [het, hterm, termAt_take ld.log (by omega) hlen]) (by rw [← hent]; exact hm) (by omega)
      (by
        rw [hft, List.take_take, Nat.min_eq_left hlc]
        exact hs.mono hg)
    rw [hft, ← hent] at acc
    have hct : ((if 0 < args.entries.length then merged.persist else merged).followCommit
        args.leaderCommit).currentTerm = args.term := by
      rw [← acc.inv.term]
      simp [Ledger.accept, Ledger.advance]
    exact .inr ⟨hr, hct, acc.after_follow hi hle⟩

theorem installSnapshot_cases {args : InstallSnapshotArgs n S} {reply : InstallSnapshotReply}
    (h : rf.installSnapshot args = some (rf', reply)) :
    (args.term < rf.currentTerm ∧ rf' = rf) ∨
    (rf.currentTerm ≤ args.term ∧ args.lastIncludedIndex ≤ rf.lastIncludedIndex ∧
      rf' = rf.follow args.term) ∨
    (rf.currentTerm ≤ args.term ∧ rf.lastIncludedIndex < args.lastIncludedIndex ∧ ∃ newLog,
      (rf.follow args.term).installedLog args = some newLog ∧
      rf' = (rf.follow args.term).install args newLog) := by
  have hbase : (rf.follow args.term).lastIncludedIndex = rf.lastIncludedIndex := follow_base rf _
  unfold Raft.installSnapshot at h
  dsimp only at h
  split_ifs at h with hterm hle
  · cases h
    exact .inl ⟨hterm, rfl⟩
  · cases h
    exact .inr (.inl ⟨by omega, by omega, rfl⟩)
  · obtain ⟨newLog, hl, h⟩ := Option.bind_eq_some_iff.mp h
    cases h
    exact .inr (.inr ⟨by omega, by omega, newLog, hl, rfl⟩)

/-- The installed log is the compaction of the log that adopts the snapshot's prefix. -/
theorem installedLog_eq (hv : Valid LogEntry.term (Majority.quorums n) g)
    (hi : RaftInv sm g d p rf) {args : InstallSnapshotArgs n S} {newLog : List (LogEntry C)}
    {t : ℕ} (hl : g.lead t = some ld) (hlen : args.lastIncludedIndex ≤ ld.log.length)
    (hterm : args.lastIncludedTerm = termAt ld.log args.lastIncludedIndex)
    (hlt : rf.lastIncludedIndex < args.lastIncludedIndex)
    (h : rf.installedLog args = some newLog) :
    newLog = ⟨args.lastIncludedTerm, none⟩ ::
      (adopt (g.log p) (ld.log.take args.lastIncludedIndex)).drop args.lastIncludedIndex := by
  obtain ⟨k, hk⟩ : ∃ k, k = args.lastIncludedIndex := ⟨_, rfl⟩
  rw [← hk] at hlen hterm hlt ⊢
  have hkl : (ld.log.take k).length = k := by
    rw [List.length_take]
    omega
  have hbm : Backed LogEntry.term g (ld.log.take k) :=
    (hv.backed_lead _ _ hl).restrict ⟨_, List.take_append_drop _ _⟩
  have hterm' : termAt (ld.log.take k) k = args.lastIncludedTerm := by
    rw [termAt_take ld.log (le_refl _) hlen, hterm]
  -- without a matching entry the snapshot's prefix is not in the log
  have bare : (¬ (k ≤ (g.log p).length ∧ termAt (g.log p) k = args.lastIncludedTerm)) →
      [(⟨args.lastIncludedTerm, none⟩ : LogEntry C)] = ⟨args.lastIncludedTerm, none⟩ ::
        (adopt (g.log p) (ld.log.take k)).drop k := by
    intro hn
    have hnp : ¬ (ld.log.take k <+: g.log p) := by
      intro hp
      have hle := hp.length_le
      rw [hkl] at hle
      refine hn ⟨hle, ?_⟩
      rw [termAt_initial hp hkl.ge, hterm']
    rw [adopt, if_neg hnp, List.drop_eq_nil_of_le hkl.le]
  unfold Raft.installedLog at h
  rw [hi.shape.lastLogIndex, ← hk] at h
  by_cases hle : k ≤ (g.log p).length
  · rw [if_pos hle] at h
    obtain ⟨e, he, h⟩ := Option.bind_eq_some_iff.mp h
    have het := (hi.shape.of_entryAt he).2.2
    by_cases ht : e.term = args.lastIncludedTerm
    · rw [if_pos ht, hi.shape.compacted hlt.le hle] at h
      cases h
      have heq := take_eq_of_termAt (hv.backed_log p) hbm hle hkl.ge
        (by rw [← het, ht, hterm'])
      rw [List.take_take, Nat.min_self] at heq
      have hp : ld.log.take k <+: g.log p := by
        rw [← heq]
        exact List.take_prefix _ _
      rw [adopt, if_pos hp, ← het, ht]
    · rw [if_neg ht] at h
      cases h
      exact bare fun hc => ht (het.trans hc.2)
  · rw [if_neg hle] at h
    cases h
    exact bare fun hc => hle hc.1

theorem install_frame (rf : Raft n C S) (args : InstallSnapshotArgs n S)
    (newLog : List (LogEntry C)) :
    (rf.install args newLog).currentTerm = rf.currentTerm ∧
    (rf.install args newLog).state = rf.state ∧
    rf.commitIndex ≤ (rf.install args newLog).commitIndex ∧
    (rf.install args newLog).lastApplied = rf.lastApplied := by
  have hle : rf.commitIndex ≤ if rf.commitIndex < args.lastIncludedIndex then
      args.lastIncludedIndex else rf.commitIndex := by
    split_ifs <;> omega
  unfold Raft.install Raft.persist
  by_cases hlate : rf.lastApplied < args.lastIncludedIndex
  · simp only [if_pos hlate]
    exact ⟨trivial, trivial, hle, trivial⟩
  · simp only [if_neg hlate]
    exact ⟨trivial, trivial, hle, trivial⟩

theorem installSnapshot_accepted (hv : Valid LogEntry.term (Majority.quorums n) g)
    (hi : RaftInv sm g d p rf) (hs : rf.state = .follower) {args : InstallSnapshotArgs n S}
    {newLog : List (LogEntry C)} {caller : Fin n}
    (hf : FromLeader g rf.currentTerm caller p ld)
    (hlen : args.lastIncludedIndex ≤ ld.log.length)
    (hterm : args.lastIncludedTerm = termAt ld.log args.lastIncludedIndex)
    (hdata : args.data = image sm (ld.log.take args.lastIncludedIndex))
    (hsealed : Sealed LogEntry.term (Majority.quorums n) g rf.currentTerm
      (ld.log.take args.lastIncludedIndex))
    (hreach : Reached d args.lastIncludedIndex)
    (hlt : rf.lastIncludedIndex < args.lastIncludedIndex)
    (h : rf.installedLog args = some newLog) :
    Outcome sm d p g (g.accept p rf.currentTerm (ld.log.take args.lastIncludedIndex)) rf
      (rf.install args newLog) := by
  have hg : Grows g (g.accept p rf.currentTerm (ld.log.take args.lastIncludedIndex)) := grows_accept
  have hm : ld.log.take args.lastIncludedIndex <+: ld.log := List.take_prefix _ _
  have hnew := installedLog_eq hv hi hf.lead hlen hterm hlt h
  have hpre : ld.log.take args.lastIncludedIndex <+:
      adopt (g.log p) (ld.log.take args.lastIncludedIndex) := prefix_adopt _ _
  have hkl : (ld.log.take args.lastIncludedIndex).length = args.lastIncludedIndex := by
    rw [List.length_take]
    omega
  have hklen := hpre.length_le
  rw [hkl] at hklen
  have htake : (adopt (g.log p) (ld.log.take args.lastIncludedIndex)).take args.lastIncludedIndex =
      ld.log.take args.lastIncludedIndex := by
    rw [take_initial hpre hkl.ge, List.take_take, Nat.min_self]
  have hkeep := hi.adopt_commit hv hf.lead hm
  have hclen := hkeep.length_le
  rw [List.length_take, Nat.min_eq_left hi.commit_le] at hclen
  have hkt : termAt (adopt (g.log p) (ld.log.take args.lastIncludedIndex)) args.lastIncludedIndex =
      args.lastIncludedTerm := by
    rw [termAt_initial hpre hkl.ge, termAt_take ld.log (le_refl _) hlen, hterm]
  -- the saved part does not depend on whether the applier is behind
  have inv : ∀ (pend : Bool) (data : Option S) (i t : ℕ),
      (pend = true → i = args.lastIncludedIndex ∧ rf.lastApplied < args.lastIncludedIndex ∧
        data = args.data) →
      (pend = false → args.lastIncludedIndex ≤ rf.lastApplied) →
      RaftInv sm (g.accept p rf.currentTerm (ld.log.take args.lastIncludedIndex)) d p
        { ({ rf with
          log := newLog
          lastIncludedIndex := args.lastIncludedIndex
          lastIncludedTerm := args.lastIncludedTerm
          snapshot := args.data
          commitIndex := if rf.commitIndex < args.lastIncludedIndex then args.lastIncludedIndex
            else rf.commitIndex } : Raft n C S).persist with
          pendingSnapshot := pend
          pendingSnapshotData := data
          pendingSnapshotIndex := i
          pendingSnapshotTerm := t } := by
    intro pend data i t hpend hcur
    refine { hi with durable := ⟨rfl, rfl, rfl, rfl, rfl, rfl⟩, shape := ?_, leads := ?_, led := ?_,
                     base_le := ?_, commit_le := ?_, committed := ?_, applied_le := ?_,
                     snapshot := ?_, acked := ?_, pending := hpend, current := hcur,
                     reached := hreach }
    · rw [accept_log_self]
      exact Shape.rebase hklen (by rw [hkt]; exact hnew) rfl hkt.symm
    · intro hc
      exact absurd (hs.symm.trans hc) (by decide)
    · intro _ _ _ hc
      exact absurd (hs.symm.trans hc) (by decide)
    · change args.lastIncludedIndex ≤ if _ then _ else _
      split_ifs <;> omega
    · change (if _ then _ else _) ≤ _
      rw [accept_log_self]
      split_ifs <;> omega
    · change Sealed _ _ _ rf.currentTerm (List.take (if _ then _ else _) _)
      rw [accept_log_self]
      split_ifs
      · rw [htake]
        exact hsealed.mono hg
      · rw [take_commit hi.commit_le hkeep (le_refl _)]
        exact hi.committed.mono hg
    · have := hi.applied_le
      change rf.lastApplied ≤ if _ then _ else _
      split_ifs <;> omega
    · rw [accept_log_self]
      change args.data = image sm (List.take args.lastIncludedIndex _)
      rw [htake, hdata]
    · intro hc
      exact absurd (hs.symm.trans hc) (by decide)
  have hfin : RaftInv sm (g.accept p rf.currentTerm (ld.log.take args.lastIncludedIndex)) d p
      (rf.install args newLog) := by
    change RaftInv sm _ d p (if rf.lastApplied < args.lastIncludedIndex then _ else _)
    by_cases hlate : rf.lastApplied < args.lastIncludedIndex
    · rw [if_pos hlate]
      exact inv true args.data args.lastIncludedIndex args.lastIncludedTerm
        (fun _ => ⟨rfl, hlate, rfl⟩) (fun hc => by cases hc)
    · rw [if_neg hlate]
      refine inv rf.pendingSnapshot rf.pendingSnapshotData rf.pendingSnapshotIndex
        rf.pendingSnapshotTerm ?_ (fun _ => by omega)
      intro hpend
      have := (hi.pending hpend).2.1
      omega
  obtain ⟨hct, hst, hci, hla⟩ := install_frame rf args newLog
  refine ⟨.single (.accept p _ _ ld hi.term hf.lead (by rw [hf.who]; exact hf.other) hm),
    fun _ hq => untouched_accept hq _ _, hfin, hct.ge, ?_, hci, hla⟩
  intro hc
  rw [hst, hs] at hc
  cases hc

theorem installSnapshot_outcome (hv : Valid LogEntry.term (Majority.quorums n) g)
    (hi : RaftInv sm g d p rf) {args : InstallSnapshotArgs n S} {reply : InstallSnapshotReply}
    {caller : Fin n} (hf : FromLeader g args.term caller p ld)
    (hlen : args.lastIncludedIndex ≤ ld.log.length)
    (hterm : args.lastIncludedTerm = termAt ld.log args.lastIncludedIndex)
    (hdata : args.data = image sm (ld.log.take args.lastIncludedIndex))
    (hs : Sealed LogEntry.term (Majority.quorums n) g args.term
      (ld.log.take args.lastIncludedIndex))
    (hreach : Reached d args.lastIncludedIndex)
    (h : rf.installSnapshot args = some (rf', reply)) :
    (¬ (rf'.currentTerm = args.term ∧ rf.lastIncludedIndex < args.lastIncludedIndex) ∧
      Outcome sm d p g (g.advance p rf'.currentTerm) rf rf') ∨
    ((rf'.currentTerm = args.term ∧ rf.lastIncludedIndex < args.lastIncludedIndex) ∧
      Outcome sm d p g ((g.advance p args.term).accept p args.term
        (ld.log.take args.lastIncludedIndex)) rf rf') := by
  rcases installSnapshot_cases h with ⟨hlt, rfl⟩ | ⟨hle, hidx, rfl⟩ | ⟨hle, hidx, newLog, hnew, rfl⟩
  · refine .inl ⟨by omega, ?_⟩
    rw [hi.advance_eq]
    exact Outcome.refl hi
  · refine .inl ⟨by omega, ?_⟩
    rw [follow_term hle]
    exact Outcome.of_follower (by rw [hi.term]; exact hle) (hi.follow hv hle) follow_state
      (by rw [follow_term hle]; exact hle) (follow_commit rf _) (follow_applied rf _)
  · have hle' : g.term p ≤ args.term := by rw [hi.term]; exact hle
    have hft : (rf.follow args.term).currentTerm = args.term := follow_term hle
    have acc := installSnapshot_accepted (valid_advance hv hle') (hi.follow hv hle) follow_state
      (by rw [hft]; exact ⟨hf.lead, hf.who, hf.other⟩) hlen hterm hdata
      (by rw [hft]; exact hs.mono (grows_advance hle')) hreach
      (by rw [follow_base]; exact hidx) hnew
    rw [hft] at acc
    exact .inr ⟨⟨(install_frame _ _ _).1.trans hft, hidx⟩, acc.after_follow hi hle⟩

end accept

section compaction

theorem takeSnapshot_cases {i : ℕ} {st : S} {rf' : Raft n C S}
    (h : rf.takeSnapshot i st = some rf') : rf' = rf ∨
    (rf.lastIncludedIndex < i ∧ i ≤ rf.lastApplied ∧ ∃ e newLog, rf.entryAt i = some e ∧
      rf.compacted i = some newLog ∧ rf' = { rf with
        log := newLog
        lastIncludedIndex := i
        lastIncludedTerm := e.term
        snapshot := some st }.persist) := by
  unfold Raft.takeSnapshot at h
  split_ifs at h with hskip
  · exact .inl (Option.some.inj h).symm
  · obtain ⟨e, he, h⟩ := Option.bind_eq_some_iff.mp h
    obtain ⟨newLog, hl, h⟩ := Option.bind_eq_some_iff.mp h
    exact .inr ⟨by omega, by omega, e, newLog, he, hl, (Option.some.inj h).symm⟩

theorem takeSnapshot_outcome (hv : Valid LogEntry.term (Majority.quorums n) g)
    (hi : RaftInv sm g d p rf) {i : ℕ} {st : S} (hst : StateInv sm g d (i, st))
    {rf' : Raft n C S} (h : rf.takeSnapshot i st = some rf') : Outcome sm d p g g rf rf' := by
  rcases takeSnapshot_cases h with rfl | ⟨hlo, hhi, e, newLog, he, hl, rfl⟩
  · exact Outcome.refl hi
  · have hcommit := hi.applied_le
    have hlen := hi.commit_le
    have het := (hi.shape.of_entryAt he).2.2
    rw [hi.shape.compacted hlo.le (by omega)] at hl
    cases hl
    obtain ⟨hreach, l, ⟨t, hdec⟩, hll, rfl⟩ := hst
    -- the state the service hands over is that of the same committed entries
    have hsame : l = (g.log p).take i := by
      refine hdec.eq_of_length hv (hi.committed.restrict (m := (g.log p).take i) ?_) ?_
      · rw [← Nat.min_eq_left (hhi.trans hcommit), ← List.take_take]
        exact List.take_prefix _ _
      · rw [List.length_take]
        omega
    refine ⟨.refl, fun q _ => Untouched.refl g q, ?_, le_refl _, fun hc => ⟨hc, rfl, rfl⟩, le_refl _,
      rfl⟩
    refine { hi with shape := Shape.rebase (by omega) rfl rfl het, durable := durable_persist _,
                     base_le := hhi.trans hcommit, pending := ?_, current := fun _ => hhi,
                     snapshot := ?_, reached := hreach }
    · intro hp
      have := (hi.pending hp).2.1
      omega
    · change some (stateAfter sm l) = image sm ((g.log p).take i)
      rw [← hsame, image_of_pos sm (by omega)]

end compaction
end DistributedLabs.RaftHistory
