import DistributedLabs.RaftMerge

set_option autoImplicit false

/-!
# A crash undoes nothing that was told to anyone

Between two critical sections the persister holds what memory holds. So a peer that
crashes right after it answered a request would, once restarted, answer it the same way
again, and what it sent or returned from `Start` is in the log it restarts with.
-/
namespace DistributedLabs.RaftCrash
open RaftModel RaftCluster RaftShape RaftHistory RaftBounds RaftMerge TermLedger Runs

variable {n : ℕ} {C S : Type}

structure SameDurable (x rf : Raft n C S) : Prop where
  currentTerm : x.currentTerm = rf.currentTerm
  votedFor : x.votedFor = rf.votedFor
  log : x.log = rf.log
  snapshot : x.snapshot = rf.snapshot
  lastIncludedIndex : x.lastIncludedIndex = rf.lastIncludedIndex
  lastIncludedTerm : x.lastIncludedTerm = rf.lastIncludedTerm

def restarted (p : Fin n) (rf : Raft n C S) : Raft n C S := Raft.make p rf.persister

/-- The restarted peer, had it kept the fields that are never saved. -/
def resumed (p : Fin n) (rf : Raft n C S) : Raft n C S :=
  { restarted p rf with
    state := rf.state
    commitIndex := rf.commitIndex
    lastApplied := rf.lastApplied
    nextIndex := rf.nextIndex
    matchIndex := rf.matchIndex
    pendingSnapshot := rf.pendingSnapshot
    pendingSnapshotData := rf.pendingSnapshotData
    pendingSnapshotIndex := rf.pendingSnapshotIndex
    pendingSnapshotTerm := rf.pendingSnapshotTerm }

section reads
variable {x rf rf' : Raft n C S}

theorem SameDurable.lastLogIndex (h : SameDurable x rf) : x.lastLogIndex = rf.lastLogIndex := by
  unfold Raft.lastLogIndex
  rw [h.log, h.lastIncludedIndex]

theorem SameDurable.entryAt (h : SameDurable x rf) (i : ℕ) : x.entryAt i = rf.entryAt i := by
  unfold Raft.entryAt Raft.offset
  rw [h.log, h.lastIncludedIndex]

theorem SameDurable.firstOfTerm (h : SameDurable x rf) (xTerm i : ℕ) :
    x.firstOfTerm xTerm i = rf.firstOfTerm xTerm i := by
  induction i with
  | zero => rfl
  | succ i ih =>
    unfold Raft.firstOfTerm
    rw [h.lastIncludedIndex, h.entryAt, ih]

theorem SameDurable.role (h : SameDurable x rf) (role : Role) :
    SameDurable { x with state := role } rf :=
  ⟨h.currentTerm, h.votedFor, h.log, h.snapshot, h.lastIncludedIndex, h.lastIncludedTerm⟩

end reads

section votes
variable {x rf rf' : Raft n C S}

def voteAnswer (rf : Raft n C S) (args : RequestVoteArgs n) : Option RequestVoteReply :=
  if args.term < rf.currentTerm then some ⟨rf.currentTerm, false⟩
  else do
    let last ← rf.entryAt rf.lastLogIndex
    some ⟨rf.currentTerm, decide ((last.term < args.lastLogTerm ∨
      (args.lastLogTerm = last.term ∧ rf.lastLogIndex ≤ args.lastLogIndex)) ∧
      (rf.votedFor = none ∨ rf.votedFor = some args.candidateId))⟩

theorem requestVote_answer (rf : Raft n C S) (args : RequestVoteArgs n) :
    (rf.requestVote args).map Prod.snd = voteAnswer (rf.observeTerm args.term) args := by
  unfold Raft.requestVote voteAnswer
  dsimp only
  by_cases hlt : args.term < (rf.observeTerm args.term).currentTerm
  · rw [if_pos hlt, if_pos hlt]
    rfl
  · rw [if_neg hlt, if_neg hlt]
    cases (rf.observeTerm args.term).entryAt (rf.observeTerm args.term).lastLogIndex with
    | none => rfl
    | some last =>
      simp only [Option.bind_eq_bind, Option.bind_some]
      split_ifs with hup hfree
      · simp [hup, hfree]
      · simp [hfree]
      · simp [hup]

theorem observeTerm_le (rf : Raft n C S) (t : ℕ) : t ≤ (rf.observeTerm t).currentTerm := by
  unfold Raft.observeTerm
  split_ifs with h
  · exact le_refl t
  · exact not_lt.mp h

theorem observeTerm_of_le {t : ℕ} (h : t ≤ rf.currentTerm) : rf.observeTerm t = rf := by
  unfold Raft.observeTerm
  rw [if_neg (by omega)]

theorem SameDurable.voteAnswer (h : SameDurable x rf) (args : RequestVoteArgs n) :
    voteAnswer x args = RaftCrash.voteAnswer rf args := by
  unfold RaftCrash.voteAnswer
  rw [h.currentTerm, h.lastLogIndex, h.entryAt, h.votedFor]

/-- A vote that was given is given again. -/
theorem voteAnswer_granted {args : RequestVoteArgs n} {reply : RequestVoteReply}
    (h : voteAnswer rf args = some reply) (hg : reply.voteGranted = true) :
    voteAnswer { rf with votedFor := some args.candidateId } args = some reply := by
  unfold voteAnswer at h ⊢
  split_ifs at h with hlt
  · cases h
    cases hg
  · obtain ⟨last, hlast, h⟩ := Option.bind_eq_some_iff.mp h
    cases h
    have hup := (of_decide_eq_true hg).1
    change (if args.term < rf.currentTerm then _ else
      (rf.entryAt rf.lastLogIndex).bind _) = _
    rw [if_neg hlt, hlast]
    simp only [Option.bind_some, or_true, and_true]
    congr 2
    rw [decide_eq_true (of_decide_eq_true hg)]
    exact decide_eq_true hup

theorem requestVote_again {args : RequestVoteArgs n} {reply : RequestVoteReply}
    (h : rf.requestVote args = some (rf', reply)) (hx : SameDurable x rf') :
    (x.requestVote args).map Prod.snd = some reply := by
  have hle := observeTerm_le rf args.term
  have hans : voteAnswer (rf.observeTerm args.term) args = some reply := by
    rw [← requestVote_answer, h]
    rfl
  rcases requestVote_cases h with ⟨_, rfl⟩ | ⟨hg, _, _, _, rfl⟩
  · rw [requestVote_answer, observeTerm_of_le (by rw [hx.currentTerm]; exact hle),
      hx.voteAnswer, hans]
  · have hs : SameDurable x { rf.observeTerm args.term with votedFor := some args.candidateId } :=
      ⟨hx.currentTerm, hx.votedFor, hx.log, hx.snapshot, hx.lastIncludedIndex,
        hx.lastIncludedTerm⟩
    rw [requestVote_answer, observeTerm_of_le (by rw [hx.currentTerm]; exact hle), hs.voteAnswer]
    exact voteAnswer_granted hans hg

end votes

section replies
variable {x rf rf' : Raft n C S}

def appendAnswer (rf : Raft n C S) (args : AppendEntriesArgs n C) : Option AppendEntriesReply :=
  if args.prevLogIndex < rf.lastIncludedIndex then
    some ⟨rf.currentTerm, false, -1, 0, rf.lastIncludedIndex + 1⟩
  else if rf.lastLogIndex < args.prevLogIndex then
    some ⟨rf.currentTerm, false, -1, 0, rf.lastLogIndex + 1⟩
  else do
    let prev ← rf.entryAt args.prevLogIndex
    if prev.term ≠ args.prevLogTerm then
      let xIndex ← rf.firstOfTerm prev.term args.prevLogIndex
      some ⟨rf.currentTerm, false, prev.term, xIndex, rf.lastLogIndex + 1⟩
    else some ⟨rf.currentTerm, true, 0, 0, 0⟩

theorem SameDurable.appendAnswer (h : SameDurable x rf) (args : AppendEntriesArgs n C) :
    appendAnswer x args = RaftCrash.appendAnswer rf args := by
  simp only [RaftCrash.appendAnswer, h.currentTerm, h.lastIncludedIndex, h.lastLogIndex,
    h.entryAt, h.firstOfTerm]

theorem SameDurable.fits (h : SameDurable x rf) {args : AppendEntriesArgs n C}
    (hf : Fits rf args) : Fits x args where
  term := by
    rw [h.currentTerm]
    exact hf.term
  low := by
    rw [h.lastIncludedIndex]
    exact hf.low
  high := by
    rw [h.lastLogIndex]
    exact hf.high
  prev := by
    rw [h.entryAt]
    exact hf.prev

theorem appendEntries_answer (hpos : 0 < rf.log.length) {args : AppendEntriesArgs n C}
    (hle : rf.currentTerm ≤ args.term) :
    (rf.appendEntries args).map Prod.snd = appendAnswer (rf.follow args.term) args := by
  by_cases hfits : Fits rf args
  · obtain ⟨e, he, ht⟩ := hfits.prev
    rw [appendEntries_fits hfits]
    simp [appendAnswer, not_lt.mpr hfits.low, not_lt.mpr hfits.high, he, ht, follow_term hle]
  unfold Raft.appendEntries appendAnswer
  dsimp only
  rw [if_neg (not_lt.mpr hle), follow_base, follow_lastLogIndex, follow_entryAt]
  by_cases hbase : args.prevLogIndex < rf.lastIncludedIndex
  · simp [hbase]
  by_cases hlast : rf.lastLogIndex < args.prevLogIndex
  · simp [hbase, hlast]
  obtain ⟨e, he⟩ := entryAt_some hpos (not_lt.mp hbase) (not_lt.mp hlast)
  have hne : e.term ≠ args.prevLogTerm :=
    fun ht => hfits ⟨hle, not_lt.mp hbase, not_lt.mp hlast, e, he, ht⟩
  simp only [hbase, hlast, he, hne, ne_eq, not_false_eq_true, if_true, if_false,
    Option.bind_eq_bind, Option.bind_some]
  cases (rf.follow args.term).firstOfTerm e.term args.prevLogIndex <;> rfl

theorem appendEntries_again {args : AppendEntriesArgs n C} {reply : AppendEntriesReply}
    (hpos : 0 < rf.log.length) (hxpos : 0 < x.log.length)
    (h : rf.appendEntries args = some (rf', reply)) (hx : SameDurable x rf') :
    (x.appendEntries args).map Prod.snd = some reply := by
  by_cases hfits : Fits rf args
  · rw [appendEntries_fits hfits] at h
    cases h
    rw [appendEntries_fits (hx.fits hfits.accepted)]
    rfl
  rcases appendEntries_cases h with ⟨hlt, rfl, _⟩ | ⟨hle, rfl, _⟩ | ⟨_, hs, _⟩
  · -- a message of an older term changes nothing
    have hlt' : args.term < x.currentTerm := by
      rw [hx.currentTerm]
      exact hlt
    unfold Raft.appendEntries at h ⊢
    rw [if_pos hlt] at h
    rw [if_pos hlt', hx.currentTerm]
    cases h
    rfl
  · have hxt : x.currentTerm = args.term := hx.currentTerm.trans (follow_term hle)
    rw [appendEntries_answer hxpos hxt.le, follow_of_term hxt, (hx.role _).appendAnswer,
      ← appendEntries_answer hpos hle, h]
    rfl
  · exact absurd (fits_of_success h hs) hfits

theorem installSnapshot_again {args : InstallSnapshotArgs n S} {reply : InstallSnapshotReply}
    (h : rf.installSnapshot args = some (rf', reply)) (hx : SameDurable x rf') :
    (x.installSnapshot args).map Prod.snd = some reply := by
  unfold Raft.installSnapshot at h
  dsimp only at h
  by_cases hterm : args.term < rf.currentTerm
  · rw [if_pos hterm] at h
    cases h
    unfold Raft.installSnapshot
    rw [if_pos (by rw [hx.currentTerm]; exact hterm), hx.currentTerm]
    rfl
  rw [if_neg hterm] at h
  have hft := follow_term (not_lt.mp hterm)
  -- a snapshot that is installed, or is not needed, is not needed again
  have done : ∀ f : Raft n C S, SameDurable x f → f.currentTerm = args.term →
      args.lastIncludedIndex ≤ f.lastIncludedIndex → reply = ⟨args.term⟩ →
      (x.installSnapshot args).map Prod.snd = some reply := by
    rintro f hf ht hle rfl
    have hxt : x.currentTerm = args.term := hf.currentTerm.trans ht
    have hxi : args.lastIncludedIndex ≤ x.lastIncludedIndex := by
      rw [hf.lastIncludedIndex]
      exact hle
    simp [Raft.installSnapshot, hxt, follow_of_term hxt, hxi]
  split_ifs at h with hle
  · cases h
    exact done _ hx hft hle (by rw [hft])
  · obtain ⟨newLog, _, h⟩ := Option.bind_eq_some_iff.mp h
    cases h
    refine done _ hx ((install_frame _ _ _).1.trans hft) ?_ (by rw [hft])
    unfold Raft.install
    dsimp only
    split_ifs <;> exact le_refl _

end replies

section runs
variable {sm : StateMachine C S} {s : Cluster n C S} {g : History n C}
  {tr : List (Transition (Cluster n C S) (Label n C))}

theorem RaftInv.sameDurable {d : List (Delivery n C S)} {p : Fin n} {rf : Raft n C S}
    (hi : RaftInv sm g d p rf) : SameDurable (restarted p rf) rf := by
  obtain ⟨ht, hv, hl, hs, hb, hbt⟩ := hi.durable
  rw [hi.me] at ht hv hl hs hb hbt
  exact ⟨ht, hv, hl, hs, hb, hbt⟩

theorem RaftInv.resumed_eq {d : List (Delivery n C S)} {p : Fin n} {rf : Raft n C S}
    (hi : RaftInv sm g d p rf) : resumed p rf = rf := by
  obtain ⟨ht, hv, hl, hs, hb, hbt⟩ := RaftInv.sameDurable hi
  obtain ⟨hme, hper, _⟩ := make_frame p rf.persister
  have hme' := hi.me
  cases rf
  simp only [resumed, restarted] at *
  simp only [ht, hv, hl, hs, hb, hbt, hme, hper, hme']

def Answers (rf : Raft n C S) : Call n C S → Prop
  | .requestVote args reply => (rf.requestVote args).map Prod.snd = reply
  | .appendEntries args reply => (rf.appendEntries args).map Prod.snd = reply
  | .installSnapshot args reply => (rf.installSnapshot args).map Prod.snd = reply

def Asks (rf : Raft n C S) (peer : Fin n) : Call n C S → Prop
  | .requestVote args _ => rf.voteRequest args.term = some (some args)
  | .appendEntries args _ => rf.replicateOnce peer = some (some (.append args))
  | .installSnapshot args _ => rf.replicateOnce peer = some (some (.snapshot args))

/-- What a step told anyone stands on what a restart right after it would find: the reply
    it sent would be sent again, the request it sent follows from the restored fields, and
    the entry that `Start` returned an index for is there. -/
structure Vouched (t : Transition (Cluster n C S) (Label n C)) : Prop where
  reply : ∀ k r, t.label = .handle k → t.post.rpcs[k]? = some r →
    Answers (restarted r.target (t.post.procs r.target).rf) r.call
  request : ∀ r, t.post.rpcs = r :: t.pre.rpcs →
    Asks (resumed r.caller (t.post.procs r.caller).rf) r.target r.call
  start : ∀ p command index term isLeader, t.label = .start p command →
    ((t.pre.procs p).rf.start command).2 = (index, term, isLeader) →
    (restarted p (t.post.procs p).rf).currentTerm = term ∧
      (isLeader = true → ∃ i : ℕ, index = i ∧
        (restarted p (t.post.procs p).rf).entryAt i = some ⟨term, command⟩)

theorem answers_of_handled {x rf rf' : Raft n C S} {call : Call n C S} (h : Handled rf rf' call)
    (hpos : 0 < rf.log.length) (hxpos : 0 < x.log.length) (hx : SameDurable x rf') :
    Answers x call := by
  cases h with
  | requestVote args reply h => exact requestVote_again h hx
  | appendEntries args reply h => exact appendEntries_again hpos hxpos h hx
  | installSnapshot args reply h => exact installSnapshot_again h hx

theorem voteRequest_term {rf : Raft n C S} {term : ℕ} {args : RequestVoteArgs n}
    (h : rf.voteRequest term = some (some args)) : args.term = term := by
  unfold Raft.voteRequest at h
  split_ifs at h
  · cases h
  · obtain ⟨last, _, h⟩ := Option.bind_eq_some_iff.mp h
    cases h
    rfl

/-- Only the two senders put a new request on the wire. -/
theorem asks_of_sent {u : Cluster n C S} {l : Label n C} (h : s.exec sm l = some u) {r : Rpc n C S}
    (hr : u.rpcs = r :: s.rpcs) : Asks (u.procs r.caller).rf r.target r.call := by
  have hlen : ¬ u.rpcs.length ≤ s.rpcs.length := by
    rw [hr, List.length_cons]
    omega
  cases exec_spec h with
  | sendVote p term peer poll args hargs =>
    obtain ⟨rfl, _⟩ := List.cons_eq_cons.mp hr
    simpa [Asks, Cluster.setProc, voteRequest_term hargs] using hargs
  | sendAppend p peer args hargs =>
    obtain ⟨rfl, _⟩ := List.cons_eq_cons.mp hr
    exact hargs
  | sendSnapshot p peer args hargs =>
    obtain ⟨rfl, _⟩ := List.cons_eq_cons.mp hr
    exact hargs
  | handle => exact absurd List.length_set.le hlen
  | reply => exact absurd (List.length_eraseIdx_le ..) hlen
  | lose => exact absurd (List.length_eraseIdx_le ..) hlen
  | tick => exact absurd le_rfl hlen
  | startElection => exact absurd le_rfl hlen
  | skipVote => exact absurd le_rfl hlen
  | skipReplicate => exact absurd le_rfl hlen
  | start => exact absurd le_rfl hlen
  | snapshot => exact absurd le_rfl hlen
  | applier => exact absurd le_rfl hlen
  | send => exact absurd le_rfl hlen
  | receive => exact absurd le_rfl hlen
  | restart => exact absurd le_rfl hlen

theorem start_entry {rf : Raft n C S} {command : Option C} {index : ℤ} {term : ℕ}
    {isLeader : Bool} (hpos : 0 < rf.log.length)
    (h : (rf.start command).2 = (index, term, isLeader)) :
    (rf.start command).1.currentTerm = term ∧ (isLeader = true → ∃ i : ℕ, index = i ∧
      (rf.start command).1.entryAt i = some ⟨term, command⟩) := by
  by_cases hlead : rf.state = .leader
  · have hl := lastLogIndex_eq hpos
    have hk : rf.lastLogIndex + 1 - rf.lastIncludedIndex = rf.log.length := by omega
    have hlow : rf.lastIncludedIndex ≤ rf.lastLogIndex + 1 := by omega
    simp only [Raft.start, hlead, ne_eq, not_true_eq_false, if_false, Prod.mk.injEq] at h
    obtain ⟨hindex, hterm, _⟩ := h
    have hterm : rf.currentTerm = term := hterm
    refine ⟨?_, fun _ => ⟨rf.lastLogIndex + 1, hindex.symm, ?_⟩⟩
    · simpa [Raft.start, hlead, Raft.persist] using hterm
    · simp [Raft.start, hlead, Raft.persist, Raft.entryAt, Raft.offset, hlow, hk, hterm]
  · simp only [Raft.start, ne_eq, hlead, not_false_eq_true, if_true, Prod.mk.injEq] at h
    obtain ⟨_, hterm, rfl⟩ := h
    simpa [Raft.start, hlead] using hterm

/-- The persister restores the six durable fields at every moment of a run, and with them
    all that the run's steps told to anyone. -/
theorem crash_transparent (run : Run (cluster n sm) tr s) :
    (∀ x, Visits tr s x → ∀ p, SameDurable (restarted p (x.procs p).rf) (x.procs p).rf) ∧
      ∀ t ∈ tr, Vouched t := by
  obtain ⟨_, _, moment⟩ := RaftSafety.visits_inv run
  have durable : ∀ x, Visits tr s x → ∀ p,
      SameDurable (restarted p (x.procs p).rf) (x.procs p).rf := by
    intro x hx p
    obtain ⟨gx, hi, _⟩ := moment x hx
    exact RaftInv.sameDurable (hi.procs p).raft
  have nonempty : ∀ x, Visits tr s x → ∀ p, 0 < (x.procs p).rf.log.length := by
    intro x hx p
    obtain ⟨gx, hi, _⟩ := moment x hx
    exact (RaftInv.inBounds (hi.procs p).raft).length_pos
  refine ⟨durable, fun t ht => ?_⟩
  have hpre : Visits tr s t.pre := .inr ⟨t, ht, rfl⟩
  have hpost := run.visits_post ht
  have hstep : t.pre.exec sm t.label = some t.post := (run.visited ht).2.1
  constructor
  · intro k r hlabel hr
    rw [hlabel] at hstep
    have hsame := durable _ hpost r.target
    refine answers_of_handled (handle_handled hstep hr) (nonempty _ hpre _) ?_ hsame
    rw [hsame.log]
    exact nonempty _ hpost _
  · intro r hr
    obtain ⟨gx, hi, _⟩ := moment _ hpost
    rw [RaftInv.resumed_eq (hi.procs r.caller).raft]
    exact asks_of_sent hstep hr
  · intro p command index term isLeader hlabel hresult
    rw [hlabel] at hstep
    have hprocs : (t.post.procs p).rf = ((t.pre.procs p).rf.start command).1 := by
      rw [← Option.some.inj hstep]
      simp [Cluster.setRaft, Cluster.setProc]
    have hsame := durable _ hpost p
    obtain ⟨hterm, hentry⟩ := start_entry (nonempty _ hpre p) hresult
    rw [← hprocs] at hterm hentry
    refine ⟨hsame.currentTerm.trans hterm, fun hlead => ?_⟩
    obtain ⟨i, hi, he⟩ := hentry hlead
    exact ⟨i, hi, (hsame.entryAt i).trans he⟩

theorem crash_transparent_sample : ∃ r, RaftSafety.sample = some r ∧
    (restarted 1 (r.2.procs 1).rf).votedFor = some 1 ∧
    (restarted 1 (r.2.procs 1).rf).entryAt 1 = some ⟨1, some 7⟩ ∧
    (∀ x, Visits r.1 r.2 x → ∀ p, SameDurable (restarted p (x.procs p).rf) (x.procs p).rf) ∧
    ∀ t ∈ r.1, Vouched t := by
  have hsome : RaftSafety.sample.map (fun r => decide
      ((restarted 1 (r.2.procs 1).rf).votedFor = some 1 ∧
        (restarted 1 (r.2.procs 1).rf).entryAt 1 = some ⟨1, some 7⟩)) = some true := by
    decide +kernel
  obtain ⟨r, hr, hd⟩ := Option.map_eq_some_iff.mp hsome
  obtain ⟨hvote, hentry⟩ := of_decide_eq_true hd
  exact ⟨r, hr, hvote, hentry, crash_transparent (RaftSafety.sample_run hr)⟩

end runs
end DistributedLabs.RaftCrash
