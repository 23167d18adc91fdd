import DistributedLabs.RaftSafety

set_option autoImplicit false

/-!
# No access to a log is out of range

Within the bounds that every reachable state keeps, none of the critical sections
panics, whatever message, reply or call it is given.
-/
namespace DistributedLabs.RaftBounds
open RaftModel RaftCluster RaftShape RaftHistory TermLedger Runs

variable {n : ℕ} {C S : Type}

structure InBounds (rf : Raft n C S) : Prop where
  boundary : ∃ e es, rf.log = e :: es ∧ e.term = rf.lastIncludedTerm
  base_le : rf.lastIncludedIndex ≤ rf.commitIndex
  commit_le : rf.commitIndex ≤ rf.lastLogIndex
  applied_le : rf.lastApplied ≤ rf.commitIndex
  current : rf.lastIncludedIndex ≤ rf.lastApplied ∨
    rf.pendingSnapshot = true ∧ rf.pendingSnapshotIndex = rf.lastIncludedIndex

/-- Every section that indexes or slices the log returns. -/
structure NoPanic (rf : Raft n C S) : Prop where
  requestVote : ∀ args, (rf.requestVote args).isSome
  voteRequest : ∀ term, (rf.voteRequest term).isSome
  appendEntries : ∀ args, (rf.appendEntries args).isSome
  installSnapshot : ∀ args, (rf.installSnapshot args).isSome
  takeSnapshot : ∀ index data, (rf.takeSnapshot index data).isSome
  replicateOnce : ∀ peer, (rf.replicateOnce peer).isSome
  backupNextIndex : ∀ peer reply, (rf.backupNextIndex peer reply).isSome
  advanceCommitIndex : rf.advanceCommitIndex.isSome
  appendReply : ∀ peer args reply, (rf.appendReply peer args reply).isSome
  applier : rf.applierReady = true → rf.applier.isSome

section access
variable {rf : Raft n C S}

theorem lastLogIndex_eq (h : 0 < rf.log.length) :
    rf.lastLogIndex + 1 = rf.lastIncludedIndex + rf.log.length := by
  unfold Raft.lastLogIndex
  omega

theorem entryAt_some (h : 0 < rf.log.length) {i : ℕ} (hlow : rf.lastIncludedIndex ≤ i)
    (hhigh : i ≤ rf.lastLogIndex) : ∃ e, rf.entryAt i = some e := by
  have hl := lastLogIndex_eq h
  have hlt : i - rf.lastIncludedIndex < rf.log.length := by omega
  exact ⟨rf.log[i - rf.lastIncludedIndex], by simp [Raft.entryAt, Raft.offset, hlow, hlt]⟩

theorem entryAt_last (h : 0 < rf.log.length) : ∃ e, rf.entryAt rf.lastLogIndex = some e := by
  have hl := lastLogIndex_eq h
  exact entryAt_some h (by omega) (le_refl _)

theorem entryAt_bounds {i : ℕ} {e : LogEntry C} (he : rf.entryAt i = some e) :
    rf.lastIncludedIndex ≤ i ∧ i ≤ rf.lastLogIndex := by
  obtain ⟨k, hk, hget⟩ := Option.bind_eq_some_iff.mp he
  unfold Raft.offset at hk
  split_ifs at hk with hlow
  cases hk
  have hlt := (List.getElem?_eq_some_iff.mp hget).choose
  have hpos : 0 < rf.log.length := by omega
  have hl := lastLogIndex_eq hpos
  exact ⟨hlow, by omega⟩

theorem compacted_some (h : 0 < rf.log.length) {i : ℕ} (hlow : rf.lastIncludedIndex ≤ i)
    (hhigh : i ≤ rf.lastLogIndex) : (rf.compacted i).isSome := by
  have hl := lastLogIndex_eq h
  have hlt : i - rf.lastIncludedIndex < rf.log.length := by omega
  have hc : rf.compacted i = clearHead (rf.log.drop (i - rf.lastIncludedIndex)) := by
    simp [Raft.compacted, Raft.offset, hlow, sliceFrom, hlt.le]
  rw [hc, List.drop_eq_getElem_cons hlt]
  rfl

/-- The search for the first entry of a term never leaves the log. -/
theorem firstOfTerm_some (h : 0 < rf.log.length) (xTerm i : ℕ) (hi : i ≤ rf.lastLogIndex + 1) :
    (rf.firstOfTerm xTerm i).isSome := by
  induction i with
  | zero => rfl
  | succ i ih =>
    unfold Raft.firstOfTerm
    split_ifs with hb
    · obtain ⟨e, he⟩ := entryAt_some h (i := i) (by omega) (by omega)
      simp only [he, Option.bind_eq_bind, Option.bind_some]
      split_ifs
      · exact ih (by omega)
      · rfl
    · rfl

/-- The search for the last entry of a term stops at the boundary at the latest. -/
theorem lastOfTerm_some (h : 0 < rf.log.length) (xTerm : ℤ) (i : ℕ)
    (hlow : rf.lastIncludedIndex ≤ i) (hhigh : i ≤ rf.lastLogIndex) :
    ∃ j, rf.lastOfTerm xTerm i = some j ∧ rf.lastIncludedIndex ≤ j ∧ j ≤ i := by
  induction i with
  | zero => exact ⟨0, rfl, hlow, le_refl _⟩
  | succ i ih =>
    unfold Raft.lastOfTerm
    split_ifs with hb
    · obtain ⟨e, he⟩ := entryAt_some h hlow hhigh
      simp only [he, Option.bind_eq_bind, Option.bind_some]
      split_ifs
      · obtain ⟨j, hj, hjlow, hjhigh⟩ := ih (by omega) (by omega)
        exact ⟨j, hj, hjlow, by omega⟩
      · exact ⟨i + 1, rfl, hlow, le_refl _⟩
    · exact ⟨i + 1, rfl, hlow, le_refl _⟩

theorem entriesAfter_some (h : 0 < rf.log.length) {prev : ℕ} (hp : rf.lastIncludedIndex ≤ prev) :
    (rf.entriesAfter prev).isSome := by
  have hl := lastLogIndex_eq h
  unfold Raft.entriesAfter
  split_ifs with hlt
  · have hs : prev + 1 - rf.lastIncludedIndex ≤ rf.log.length := by omega
    simp [Raft.offset, hp.trans (Nat.le_succ prev), sliceFrom, hs]
  · rfl

theorem mergeEntries_some (h : 0 < rf.log.length) {prev : ℕ} (hlow : rf.lastIncludedIndex ≤ prev)
    (hhigh : prev ≤ rf.lastLogIndex) (es : List (LogEntry C)) :
    (rf.mergeEntries prev 0 es).isSome := by
  have hl := lastLogIndex_eq h
  rw [mergeEntries_eq prev 0 es rf hlow (by omega)]
  rfl

end access

section sections
variable {rf : Raft n C S}

theorem requestVote_some (h : 0 < rf.log.length) (args : RequestVoteArgs n) :
    (rf.requestVote args).isSome := by
  have hlog : (rf.observeTerm args.term).log = rf.log := by
    unfold Raft.observeTerm
    split_ifs <;> rfl
  have hpos : 0 < (rf.observeTerm args.term).log.length := by
    rw [hlog]
    exact h
  obtain ⟨e, he⟩ := entryAt_last hpos
  unfold Raft.requestVote
  simp only [he, Option.bind_eq_bind, Option.bind_some]
  split_ifs <;> rfl

theorem voteRequest_some (h : 0 < rf.log.length) (term : ℕ) : (rf.voteRequest term).isSome := by
  unfold Raft.voteRequest
  split_ifs
  · rfl
  · obtain ⟨e, he⟩ := entryAt_last h
    simp [he]

theorem appendEntries_some (h : 0 < rf.log.length) (args : AppendEntriesArgs n C) :
    (rf.appendEntries args).isSome := by
  have hf : 0 < (rf.follow args.term).log.length := by simpa using h
  unfold Raft.appendEntries
  dsimp only
  by_cases hterm : args.term < rf.currentTerm
  · simp [hterm]
  by_cases hbase : args.prevLogIndex < rf.lastIncludedIndex
  · simp [hterm, hbase]
  by_cases hlast : rf.lastLogIndex < args.prevLogIndex
  · simp [hterm, hbase, hlast]
  obtain ⟨e, he⟩ := entryAt_some h (not_lt.mp hbase) (not_lt.mp hlast)
  by_cases hne : e.term = args.prevLogTerm
  · obtain ⟨x, hx⟩ := Option.isSome_iff_exists.mp
      (mergeEntries_some hf (by simpa using hbase) (by simpa using hlast) args.entries)
    simp [hterm, hbase, hlast, he, hne, hx]
  · obtain ⟨x, hx⟩ := Option.isSome_iff_exists.mp
      (firstOfTerm_some hf e.term args.prevLogIndex (by rw [follow_lastLogIndex]; omega))
    simp [hterm, hbase, hlast, he, hne, hx]

theorem installSnapshot_some (h : 0 < rf.log.length) (args : InstallSnapshotArgs n S) :
    (rf.installSnapshot args).isSome := by
  have hf : 0 < (rf.follow args.term).log.length := by simpa using h
  have hinst : (rf.follow args.term).lastIncludedIndex ≤ args.lastIncludedIndex →
      ((rf.follow args.term).installedLog args).isSome := by
    intro hlow
    unfold Raft.installedLog
    split_ifs with hhigh
    · obtain ⟨e, he⟩ := entryAt_some hf hlow hhigh
      simp only [he, Option.bind_eq_bind, Option.bind_some]
      split_ifs
      · exact compacted_some hf hlow hhigh
      · rfl
    · rfl
  unfold Raft.installSnapshot
  dsimp only
  split_ifs with hterm hle
  · rfl
  · rfl
  · obtain ⟨l, hl⟩ := Option.isSome_iff_exists.mp (hinst (by omega))
    simp [hl]

theorem takeSnapshot_some (h : 0 < rf.log.length) (hb : rf.lastApplied ≤ rf.lastLogIndex)
    (index : ℕ) (data : S) : (rf.takeSnapshot index data).isSome := by
  unfold Raft.takeSnapshot
  split_ifs with hskip
  · rfl
  · obtain ⟨e, he⟩ := entryAt_some h (i := index) (by omega) (by omega)
    obtain ⟨l, hl⟩ := Option.isSome_iff_exists.mp
      (compacted_some h (i := index) (by omega) (by omega))
    simp [he, hl]

theorem replicateOnce_some (h : 0 < rf.log.length) (peer : Fin n) :
    (rf.replicateOnce peer).isSome := by
  unfold Raft.replicateOnce
  dsimp only
  split_ifs with hs hsnap hahead
  · rfl
  · rfl
  · rfl
  · have hprev : rf.lastIncludedIndex ≤ rf.nextIndex peer - 1 := by omega
    obtain ⟨es, hes⟩ := Option.isSome_iff_exists.mp (entriesAfter_some h hprev)
    obtain ⟨e, he⟩ := entryAt_some h hprev (by omega)
    simp [hes, he]

theorem backupNextIndex_some (h : 0 < rf.log.length) (peer : Fin n) (reply : AppendEntriesReply) :
    (rf.backupNextIndex peer reply).isSome := by
  have hl := lastLogIndex_eq h
  have hnext : (rf.conflictNext reply).isSome := by
    unfold Raft.conflictNext
    split_ifs
    · rfl
    · obtain ⟨j, hj, hlow, hhigh⟩ :=
        lastOfTerm_some h reply.xTerm rf.lastLogIndex (by omega) (le_refl _)
      obtain ⟨e, he⟩ := entryAt_some h hlow hhigh
      simp only [hj, he, Option.bind_eq_bind, Option.bind_some]
      split_ifs <;> rfl
  obtain ⟨x, hx⟩ := Option.isSome_iff_exists.mp hnext
  simp [Raft.backupNextIndex, hx]

theorem advanceCommitIndex_some (h : 0 < rf.log.length)
    (hb : rf.lastIncludedIndex ≤ rf.commitIndex) : rf.advanceCommitIndex.isSome := by
  have hpos : 0 < n := Fin.pos rf.me
  have hlen : n / 2 < ((List.ofFn rf.matchIndex).insertionSort (· ≤ ·)).length := by
    rw [List.length_insertionSort, List.length_ofFn]
    omega
  unfold Raft.advanceCommitIndex
  split_ifs
  · rfl
  · simp only [List.getElem?_eq_getElem hlen, Option.bind_eq_bind, Option.bind_some]
    split_ifs with hN
    · obtain ⟨e, he⟩ := entryAt_some h (hb.trans hN.1.le) hN.2
      simp only [he, Option.bind_some]
      split_ifs <;> rfl
    · rfl

theorem appendReply_some (h : 0 < rf.log.length) (hb : rf.lastIncludedIndex ≤ rf.commitIndex)
    (peer : Fin n) (args : AppendEntriesArgs n C) (reply : AppendEntriesReply) :
    (rf.appendReply peer args reply).isSome := by
  unfold Raft.appendReply
  split_ifs
  · rfl
  · rfl
  · exact advanceCommitIndex_some h hb
  · exact backupNextIndex_some h peer reply
  · rfl

theorem InBounds.length_pos (hb : InBounds rf) : 0 < rf.log.length := by
  obtain ⟨e, es, hl, _⟩ := hb.boundary
  simp [hl]

theorem InBounds.applier (hb : InBounds rf) (hready : rf.applierReady = true) :
    rf.applier.isSome := by
  unfold Raft.applier
  split_ifs with hp
  · rfl
  · have hcur : rf.lastIncludedIndex ≤ rf.lastApplied := by
      rcases hb.current with hc | hc
      · exact hc
      · exact absurd hc.1 hp
    have hlt : rf.lastApplied < rf.commitIndex := by simpa [Raft.applierReady, hp] using hready
    obtain ⟨e, he⟩ := entryAt_some hb.length_pos (i := rf.lastApplied + 1) (by omega)
      (hlt.trans_le hb.commit_le)
    simp [he]

theorem InBounds.noPanic (hb : InBounds rf) : NoPanic rf where
  requestVote := requestVote_some hb.length_pos
  voteRequest := voteRequest_some hb.length_pos
  appendEntries := appendEntries_some hb.length_pos
  installSnapshot := installSnapshot_some hb.length_pos
  takeSnapshot := takeSnapshot_some hb.length_pos (hb.applied_le.trans hb.commit_le)
  replicateOnce := replicateOnce_some hb.length_pos
  backupNextIndex := backupNextIndex_some hb.length_pos
  advanceCommitIndex := advanceCommitIndex_some hb.length_pos hb.base_le
  appendReply := appendReply_some hb.length_pos hb.base_le
  applier := hb.applier

end sections

section runs
variable {sm : StateMachine C S} {s : Cluster n C S}
  {tr : List (Transition (Cluster n C S) (Label n C))}

theorem RaftInv.inBounds {g : History n C} {d : List (Delivery n C S)} {p : Fin n}
    {rf : Raft n C S} (hi : RaftInv sm g d p rf) : InBounds rf where
  boundary := ⟨_, _, hi.shape.log, hi.shape.baseTerm.symm⟩
  base_le := hi.base_le
  commit_le := by
    rw [hi.shape.lastLogIndex]
    exact hi.commit_le
  applied_le := hi.applied_le
  current := by
    cases hp : rf.pendingSnapshot with
    | false => exact .inl (hi.current hp)
    | true => exact .inr ⟨rfl, (hi.pending hp).1⟩

theorem no_access_out_of_range (run : Run (cluster n sm) tr s) (p : Fin n) :
    InBounds (s.procs p).rf ∧ NoPanic (s.procs p).rf := by
  obtain ⟨lifted, g, hrun, _⟩ := run.lift empty observe
  have hi : Inv sm s g := recorded_inv hrun
  have hb := RaftInv.inBounds (hi.procs p).raft
  exact ⟨hb, hb.noPanic⟩

theorem no_access_out_of_range_sample : ∃ r, RaftSafety.sample = some r ∧
    (r.2.procs 1).rf.lastApplied = 1 ∧ InBounds (r.2.procs 1).rf ∧ NoPanic (r.2.procs 1).rf := by
  have hsome : RaftSafety.sample.map (fun r => (r.2.procs 1).rf.lastApplied) = some 1 := by
    decide +kernel
  obtain ⟨r, hr, hval⟩ := Option.map_eq_some_iff.mp hsome
  exact ⟨r, hr, hval, no_access_out_of_range (RaftSafety.sample_run hr) 1⟩

end runs
end DistributedLabs.RaftBounds
