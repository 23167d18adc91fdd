import DistributedLabs.RaftBounds

set_option autoImplicit false

/-!
# What a leader notes about its peers

Rejections move `nextIndex` down, acceptances and snapshots move it and `matchIndex` up;
late replies may do either. A relation between the two and the last index is kept by every
step if it survives the few moves listed here. The first such relation is that `nextIndex`
never points behind the entry after the last one.
-/
namespace DistributedLabs.RaftNextIndex
open RaftModel RaftCluster RaftShape RaftHistory RaftBounds TermLedger Runs

variable {n : ℕ} {C S : Type}

/-- While it leads, the peer's last index, `nextIndex` and `matchIndex` are related by `P`. -/
def Tracks (P : ℕ → ℕ → ℕ → Prop) (rf : Raft n C S) : Prop :=
  rf.state = .leader → ∀ q, P rf.lastLogIndex (rf.nextIndex q) (rf.matchIndex q)

/-- `P` survives an election, a new entry and the confirmation of what is in the log. -/
structure Closed (P : ℕ → ℕ → ℕ → Prop) : Prop where
  elected : ∀ last m, m ≤ last → P last (last + 1) m
  appended : ∀ last next m, P last next m → P (last + 1) next m
  confirmed : ∀ last next m k, P last next m → k ≤ last → P last (max next (k + 1)) (max m k)

def NextOk (rf : Raft n C S) : Prop :=
  rf.state = .leader → ∀ q, rf.nextIndex q ≤ rf.lastLogIndex + 1

theorem closed_nextOk : Closed (fun last next _ => next ≤ last + 1) where
  elected last m _ := le_refl _
  appended last next m h := by omega
  confirmed last next m k h hk := by omega

section sections
variable {rf rf' : Raft n C S} {P : ℕ → ℕ → ℕ → Prop}

theorem tracks_of_ne (h : rf.state ≠ .leader) : Tracks P rf := fun hs => absurd hs h

theorem Tracks.congr (h : Tracks P rf) (hs : rf'.state = rf.state)
    (hl : rf'.lastLogIndex = rf.lastLogIndex) (hn : rf'.nextIndex = rf.nextIndex)
    (hm : rf'.matchIndex = rf.matchIndex) : Tracks P rf' := by
  intro hlead q
  rw [hl, hn, hm]
  exact h (hs ▸ hlead) q

theorem Tracks.back (h : Tracks P rf) (peer : Fin n) {next : ℕ}
    (hnext : P rf.lastLogIndex next (rf.matchIndex peer)) (hs : rf'.state = rf.state)
    (hl : rf'.lastLogIndex = rf.lastLogIndex)
    (hn : rf'.nextIndex = Function.update rf.nextIndex peer next)
    (hm : rf'.matchIndex = rf.matchIndex) : Tracks P rf' := by
  intro hlead q
  rw [hl, hn, hm]
  by_cases hq : q = peer
  · subst hq
    rw [Function.update_self]
    exact hnext
  · rw [Function.update_of_ne hq]
    exact h (hs ▸ hlead) q

theorem raise_apply (f : Fin n → ℕ) (peer : Fin n) (k : ℕ) (q : Fin n) :
    (if f peer < k then Function.update f peer k else f) q = if q = peer then max (f q) k else f q := by
  by_cases hq : q = peer
  · subst hq
    rw [if_pos rfl]
    split_ifs with hlt
    · rw [Function.update_self, Nat.max_eq_right hlt.le]
    · rw [Nat.max_eq_left (not_lt.mp hlt)]
  · rw [if_neg hq]
    split_ifs
    · rw [Function.update_of_ne hq]
    · rfl

theorem Tracks.confirm (h : Tracks P rf) (hP : Closed P) (peer : Fin n) {k : ℕ}
    (hk : k ≤ rf.lastLogIndex) (hs : rf'.state = rf.state)
    (hl : rf'.lastLogIndex = rf.lastLogIndex)
    (hn : rf'.nextIndex = if rf.nextIndex peer < k + 1 then
      Function.update rf.nextIndex peer (k + 1) else rf.nextIndex)
    (hm : rf'.matchIndex = if rf.matchIndex peer < k then
      Function.update rf.matchIndex peer k else rf.matchIndex) : Tracks P rf' := by
  intro hlead q
  have hq := h (hs ▸ hlead) q
  rw [hl, hn, hm, raise_apply, raise_apply]
  split_ifs
  · exact hP.confirmed _ _ _ _ hq hk
  · exact hq

theorem Tracks.observeTerm (h : Tracks P rf) (t : ℕ) : Tracks P (rf.observeTerm t) := by
  unfold Raft.observeTerm
  split_ifs
  · exact tracks_of_ne nofun
  · exact h

theorem Tracks.handled {call : Call n C S} (h : Tracks P rf) (hh : Handled rf rf' call) :
    Tracks P rf' := by
  cases hh with
  | requestVote args reply hv =>
    rcases requestVote_cases hv with ⟨_, rfl⟩ | ⟨_, _, _, _, rfl⟩
    · exact h.observeTerm args.term
    · exact (h.observeTerm args.term).congr rfl rfl rfl rfl
  | appendEntries args reply ha =>
    by_cases hle : rf.currentTerm ≤ args.term
    · refine tracks_of_ne ?_
      rw [(appendEntries_frame ha hle).1]
      nofun
    · rcases appendEntries_cases ha with ⟨_, rfl, _⟩ | ⟨hterm, _⟩ | ⟨hterm, _⟩
      · exact h
      · exact absurd hterm hle
      · exact absurd hterm hle
  | installSnapshot args reply hs =>
    rcases installSnapshot_cases hs with ⟨_, rfl⟩ | ⟨_, _, rfl⟩ | ⟨_, _, newLog, _, rfl⟩
    · exact h
    · refine tracks_of_ne ?_
      rw [follow_state]
      nofun
    · refine tracks_of_ne ?_
      rw [(install_frame _ _ _).2.1, follow_state]
      nofun

/-- Where a rejection with a hint leaves `nextIndex`: below the old value, and not below
    the boundary. -/
def backedUp (rf : Raft n C S) (peer : Fin n) (hint : ℕ) : ℕ :=
  max (min hint (rf.nextIndex peer - 1)) (max rf.lastIncludedIndex 1)

theorem backupNextIndex_spec {peer : Fin n} {reply : AppendEntriesReply} {hint : ℕ}
    (h : rf.conflictNext reply = some hint) : rf.backupNextIndex peer reply =
      some { rf with nextIndex := Function.update rf.nextIndex peer (backedUp rf peer hint) } := by
  have hlow : (if rf.nextIndex peer ≤ hint then rf.nextIndex peer - 1 else hint) =
      min hint (rf.nextIndex peer - 1) := by
    split_ifs <;> omega
  have hmin : (if rf.lastIncludedIndex < 1 then 1 else rf.lastIncludedIndex) =
      max rf.lastIncludedIndex 1 := by
    split_ifs <;> omega
  have hclamp : ∀ a b : ℕ, (if a < b then b else a) = max a b := by
    intro a b
    split_ifs <;> omega
  unfold Raft.backupNextIndex backedUp
  simp only [h, Option.bind_eq_bind, Option.bind_some, hlow, hmin, hclamp]

theorem backedUp_le {peer : Fin n} {hint : ℕ} (hn : rf.nextIndex peer ≤ rf.lastLogIndex + 1)
    (hb : rf.lastIncludedIndex ≤ rf.lastLogIndex) :
    backedUp rf peer hint ≤ rf.lastLogIndex + 1 := by
  unfold backedUp
  omega

/-- A refusal the leader acts on: it is of its term, and `nextIndex` has not moved beyond the
    probe since. -/
structure Refused (rf : Raft n C S) (peer : Fin n) (args : AppendEntriesArgs n C)
    (reply : AppendEntriesReply) (hint : ℕ) : Prop where
  leads : rf.state = .leader
  current : rf.currentTerm = args.term
  replyTerm : reply.term ≤ rf.currentTerm
  failed : reply.success = false
  fresh : rf.nextIndex peer ≤ args.prevLogIndex + 1
  hint : rf.conflictNext reply = some hint

theorem Refused.appendReply {peer : Fin n} {args : AppendEntriesArgs n C}
    {reply : AppendEntriesReply} {hint : ℕ} (h : Refused rf peer args reply hint) :
    rf.appendReply peer args reply =
      some { rf with nextIndex := Function.update rf.nextIndex peer (backedUp rf peer hint) } := by
  have hcur : ¬ (rf.state ≠ .leader ∨ rf.currentTerm ≠ args.term) := by simp [h.leads, h.current]
  unfold Raft.appendReply
  rw [if_neg hcur, if_neg (not_lt.mpr h.replyTerm), if_neg (by simp [h.failed]), if_pos h.fresh]
  exact backupNextIndex_spec h.hint

theorem Tracks.becomeLeader (h : Tracks P rf) (hP : Closed P) (t : ℕ) :
    Tracks P (rf.becomeLeader t) := by
  unfold Raft.becomeLeader
  split_ifs
  · exact h
  · intro _ q
    refine hP.elected _ _ ?_
    change (if q = rf.me then rf.lastLogIndex else 0) ≤ rf.lastLogIndex
    split_ifs <;> omega

theorem Tracks.voteReply {t votes votes' : ℕ} {reply : RequestVoteReply} (h : Tracks P rf)
    (hP : Closed P) (hv : rf.voteReply t votes reply = (rf', votes')) : Tracks P rf' := by
  rcases voteReply_cases hv with ⟨_, rfl⟩ | ⟨rfl, _⟩ | ⟨_, _, _, _, rfl | ⟨_, rfl⟩⟩
  · exact tracks_of_ne nofun
  · exact h
  · exact h
  · exact h.becomeLeader hP t

theorem Tracks.advanceCommitIndex (h : Tracks P rf) (ha : rf.advanceCommitIndex = some rf') :
    Tracks P rf' := by
  rcases advanceCommitIndex_cases ha with rfl | ⟨N, e, _, _, _, _, _, _, rfl⟩
  · exact h
  · exact h.congr rfl rfl rfl rfl

def confirmed (rf : Raft n C S) (peer : Fin n) (k : ℕ) : Raft n C S :=
  { rf with
    matchIndex := if rf.matchIndex peer < k then Function.update rf.matchIndex peer k
      else rf.matchIndex
    nextIndex := if rf.nextIndex peer < k + 1 then Function.update rf.nextIndex peer (k + 1)
      else rf.nextIndex }

theorem appendReply_cases {peer : Fin n} {args : AppendEntriesArgs n C}
    {reply : AppendEntriesReply} (h : rf.appendReply peer args reply = some rf') :
    (rf' = rf ∧ (rf.state ≠ .leader ∨ rf.currentTerm ≠ args.term)) ∨
    rf' = rf.toFollower reply.term ∨
    (reply.success = false ∧ (rf' = rf ∨ ∃ hint, Refused rf peer args reply hint ∧
      rf' = { rf with nextIndex := Function.update rf.nextIndex peer (backedUp rf peer hint) })) ∨
    (rf.state = .leader ∧ rf.currentTerm = args.term ∧ reply.success = true ∧
      (confirmed rf peer (args.prevLogIndex + args.entries.length)).advanceCommitIndex = some rf') := by
  have happ := h
  unfold Raft.appendReply at h
  by_cases hold : rf.state ≠ .leader ∨ rf.currentTerm ≠ args.term
  · rw [if_pos hold] at h
    exact .inl ⟨(Option.some.inj h).symm, hold⟩
  rw [if_neg hold] at h
  by_cases hterm : rf.currentTerm < reply.term
  · rw [if_pos hterm] at h
    exact .inr (.inl (Option.some.inj h).symm)
  rw [if_neg hterm] at h
  right; right
  have hlead : rf.state = .leader := by tauto
  have hcur : rf.currentTerm = args.term := by tauto
  by_cases hsucc : reply.success = true
  · rw [if_pos hsucc] at h
    exact .inr ⟨hlead, hcur, hsucc, h⟩
  rw [if_neg hsucc] at h
  have hfail : reply.success = false := by simpa using hsucc
  refine .inl ⟨hfail, ?_⟩
  by_cases hfresh : rf.nextIndex peer ≤ args.prevLogIndex + 1
  · rw [if_pos hfresh] at h
    obtain ⟨hint, hh, _⟩ := Option.bind_eq_some_iff.mp h
    have hr : Refused rf peer args reply hint :=
      ⟨hlead, hcur, not_lt.mp hterm, hfail, hfresh, hh⟩
    rw [hr.appendReply] at happ
    exact .inr ⟨hint, hr, (Option.some.inj happ).symm⟩
  · rw [if_neg hfresh] at h
    exact .inl (Option.some.inj h).symm

theorem snapshotReply_cases (rf : Raft n C S) (peer : Fin n) (args : InstallSnapshotArgs n S)
    (reply : InstallSnapshotReply) :
    rf.snapshotReply peer args reply = rf ∨
    rf.snapshotReply peer args reply = rf.toFollower reply.term ∨
    (rf.state = .leader ∧ rf.currentTerm = args.term ∧
      rf.snapshotReply peer args reply = confirmed rf peer args.lastIncludedIndex) := by
  unfold Raft.snapshotReply
  by_cases hold : rf.state ≠ .leader ∨ rf.currentTerm ≠ args.term
  · rw [if_pos hold]
    exact .inl rfl
  rw [if_neg hold]
  by_cases hterm : rf.currentTerm < reply.term
  · rw [if_pos hterm]
    exact .inr (.inl rfl)
  · rw [if_neg hterm]
    exact .inr (.inr ⟨by tauto, by tauto, rfl⟩)

theorem Tracks.appendReply {peer : Fin n} {args : AppendEntriesArgs n C}
    {reply : AppendEntriesReply} (h : Tracks P rf) (hP : Closed P)
    (hsent : rf.state = .leader → rf.currentTerm = args.term →
      args.prevLogIndex + args.entries.length ≤ rf.lastLogIndex)
    (hback : ∀ hint, Refused rf peer args reply hint →
      P rf.lastLogIndex (backedUp rf peer hint) (rf.matchIndex peer))
    (ha : rf.appendReply peer args reply = some rf') : Tracks P rf' := by
  rcases appendReply_cases ha with ⟨rfl, _⟩ | rfl | ⟨_, rfl | ⟨hint, hr, rfl⟩⟩ |
    ⟨hlead, hcur, _, hadv⟩
  · exact h
  · exact tracks_of_ne nofun
  · exact h
  · exact h.back peer (hback hint hr) rfl rfl rfl rfl
  · refine Tracks.advanceCommitIndex ?_ hadv
    exact h.confirm hP peer (hsent hlead hcur) rfl rfl rfl rfl

theorem Tracks.snapshotReply {peer : Fin n} {args : InstallSnapshotArgs n S}
    {reply : InstallSnapshotReply} (h : Tracks P rf) (hP : Closed P)
    (hsent : rf.state = .leader → rf.currentTerm = args.term →
      args.lastIncludedIndex ≤ rf.lastLogIndex) : Tracks P (rf.snapshotReply peer args reply) := by
  rcases snapshotReply_cases rf peer args reply with heq | heq | ⟨hlead, hcur, heq⟩
  · rw [heq]
    exact h
  · rw [heq]
    exact tracks_of_ne nofun
  · rw [heq]
    exact h.confirm hP peer (hsent hlead hcur) rfl rfl rfl rfl

theorem Tracks.start (h : Tracks P rf) (hP : Closed P) (hpos : 0 < rf.log.length)
    (command : Option C) : Tracks P (rf.start command).1 := by
  by_cases hs : rf.state = .leader
  · rw [start_leader hs hpos]
    intro _ q
    have hlen := lastLogIndex_eq hpos
    have hlast : rf.lastIncludedIndex +
        (rf.log ++ [(⟨rf.currentTerm, command⟩ : LogEntry C)]).length - 1 = rf.lastLogIndex + 1 := by
      rw [List.length_append, List.length_singleton]
      omega
    simp only [Raft.persist, Raft.lastLogIndex, hlast]
    by_cases hq : q = rf.me
    · rw [hq, Function.update_self, Function.update_self]
      exact hP.elected _ _ (by omega)
    · rw [Function.update_of_ne hq, Function.update_of_ne hq]
      exact hP.appended _ _ _ (h hs q)
  · rw [start_follower hs]
    exact h

theorem Tracks.takeSnapshot {full : List (LogEntry C)} {i : ℕ} {st : S} (h : Tracks P rf)
    (hshape : Shape full rf) (ht : rf.takeSnapshot i st = some rf') : Tracks P rf' := by
  rcases takeSnapshot_cases ht with rfl | ⟨hlo, _, e, newLog, he, hl, rfl⟩
  · exact h
  · obtain ⟨_, hle, het⟩ := hshape.of_entryAt he
    rw [hshape.compacted hlo.le hle] at hl
    cases hl
    refine h.congr rfl ?_ rfl rfl
    rw [hshape.lastLogIndex]
    exact Shape.lastLogIndex (Shape.rebase hle rfl rfl het)

theorem Tracks.applier {msg : ApplyMsg C S} (h : Tracks P rf)
    (ha : rf.applier = some (rf', msg)) : Tracks P rf' := by
  rcases applier_cases ha with ⟨_, rfl, _⟩ | ⟨_, rfl, _⟩
  · exact h.congr rfl rfl rfl rfl
  · exact h.congr rfl rfl rfl rfl

end sections

section runs
variable {sm : StateMachine C S} {s u : Cluster n C S} {g : History n C} {P : ℕ → ℕ → ℕ → Prop}

theorem tracks_setProc (h : ∀ q, Tracks P (s.procs q).rf) {p : Fin n} {y : Proc n C S}
    (hy : Tracks P y.rf) (q : Fin n) : Tracks P (Function.update s.procs p y q).rf := by
  by_cases hq : q = p
  · subst hq
    rwa [Function.update_self]
  · rw [Function.update_of_ne hq]
    exact h q

/-- A leader's messages carry no more than what is still in its log. -/
theorem sent_le (hi : Inv sm s g) {p : Fin n} {t : ℕ} {ld : Leader (Fin n) (LogEntry C)}
    {target : Fin n} (hf : FromLeader g t p target ld) {k : ℕ} (hk : k ≤ ld.log.length)
    (hs : (s.procs p).rf.state = .leader) (ht : (s.procs p).rf.currentTerm = t) :
    k ≤ (s.procs p).rf.lastLogIndex := by
  have hraft := (hi.procs p).raft
  obtain ⟨ld', hl, _, hlog⟩ := hraft.leader_log hi.valid hs
  rw [ht, hf.lead] at hl
  cases hl
  rw [hraft.shape.lastLogIndex, hlog]
  exact hk

def BacksUp (P : ℕ → ℕ → ℕ → Prop) (s : Cluster n C S) (r : Rpc n C S) : Prop :=
  ∀ args reply hint, r.call = .appendEntries args (some reply) →
    Refused (s.procs r.caller).rf r.target args reply hint →
    P (s.procs r.caller).rf.lastLogIndex (backedUp (s.procs r.caller).rf r.target hint)
      ((s.procs r.caller).rf.matchIndex r.target)

theorem tracks_replied (hP : Closed P) (hi : Inv sm s g) {r : Rpc n C S} (hr : r ∈ s.rpcs)
    (ht : Tracks P (s.procs r.caller).rf) (hback : BacksUp P s r) {y : Proc n C S}
    (h : Replied (s.procs r.caller) r.target y r.call) : Tracks P y.rf := by
  have hcall := (hi.rpcs r hr).2
  unfold CallInv at hcall
  unfold BacksUp at hback
  generalize r.call = call at h hcall hback
  cases h with
  | requestVote args reply rf votes h hy =>
    subst hy
    exact ht.voteReply hP h
  | appendEntries args reply rf h hy =>
    subst hy
    obtain ⟨ld, hf, hlen, _⟩ := hcall
    exact ht.appendReply hP (sent_le hi hf hlen) (fun hint => hback args reply hint rfl) h
  | installSnapshot args reply hy =>
    subst hy
    obtain ⟨ld, hf, hlen, _⟩ := hcall
    exact ht.snapshotReply hP (sent_le hi hf hlen)

theorem tracks_step (hP : Closed P) (hi : Inv sm s g) (ht : ∀ q, Tracks P (s.procs q).rf)
    {l : Label n C} (hback : ∀ k r, l = .reply k → s.rpcs[k]? = some r → BacksUp P s r)
    (h : s.exec sm l = some u) : ∀ q, Tracks P (u.procs q).rf := by
  cases exec_spec h with
  | tick p => exact tracks_setProc ht (ht p)
  | startElection p => exact tracks_setProc ht (tracks_of_ne nofun)
  | skipVote p term peer => exact tracks_setProc ht (ht p)
  | sendVote p term peer => exact tracks_setProc ht (ht p)
  | skipReplicate p peer => exact ht
  | sendAppend p peer => exact ht
  | sendSnapshot p peer => exact ht
  | handle k r call rf hk hh => exact tracks_setProc ht ((ht r.target).handled hh)
  | reply k r y hk hr =>
    exact tracks_setProc ht
      (tracks_replied hP hi (List.mem_of_getElem? hk) (ht r.caller) (hback k r rfl hk) hr)
  | lose k => exact ht
  | start p command =>
    exact tracks_setProc ht
      ((ht p).start hP (RaftInv.inBounds (hi.procs p).raft).length_pos command)
  | snapshot p k i st rf hs =>
    exact tracks_setProc ht ((ht p).takeSnapshot (hi.procs p).raft.shape hs)
  | applier p rf msg free ready ha => exact tracks_setProc ht ((ht p).applier ha)
  | send p => exact tracks_setProc ht (ht p)
  | receive p => exact tracks_setProc ht (ht p)
  | restart p =>
    refine tracks_setProc ht (tracks_of_ne ?_)
    change (Raft.make p (s.procs p).rf.persister).state ≠ .leader
    rw [(make_frame p (s.procs p).rf.persister).2.2.1]
    nofun

theorem next_ok {tr : List (Transition (Cluster n C S) (Label n C))} (run : Run (cluster n sm) tr s)
    (q : Fin n) : NextOk (s.procs q).rf := by
  refine run.history (I := fun _ s => ∀ q, NextOk (s.procs q).rf) ?_ ?_ q
  · rintro s rfl q
    exact tracks_of_ne (P := fun last next _ => next ≤ last + 1) nofun
  · intro tr s l u run hn h
    obtain ⟨g, hi, _⟩ := RaftSafety.visits_inv run
    refine tracks_step closed_nextOk hi hn ?_ h
    intro k r _ hk args reply hint _ hr
    have hraft := (hi.procs r.caller).raft
    refine backedUp_le (hn r.caller hr.leads r.target) ?_
    rw [hraft.shape.lastLogIndex]
    exact hraft.shape.base

end runs
end DistributedLabs.RaftNextIndex
