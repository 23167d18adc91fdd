import DistributedLabs.Majority
import DistributedLabs.RaftCluster
import DistributedLabs.RaftShape
import DistributedLabs.TermLedgerCommit

set_option autoImplicit false

/-!
# The history of a cluster and its invariant

`observe` records beside a run what no peer stores: the uncompacted log of every
peer, every leader's log, the acknowledgements and the votes. It reads the
transition and never restricts it.
-/
namespace DistributedLabs.RaftHistory
open RaftModel RaftCluster RaftShape TermLedger

variable {n : ℕ} {C S : Type}

abbrev History (n : ℕ) (C : Type) := Ledger (Fin n) (LogEntry C)

noncomputable section

def leaderLog (g : History n C) (t : ℕ) : List (LogEntry C) :=
  match g.lead t with
  | none => []
  | some ld => ld.log

def observeHandled (g : History n C) (s u : Cluster n C S) (r : Rpc n C S) : History n C :=
  let rf := (u.procs r.target).rf
  let h := g.advance r.target rf.currentTerm
  match r.call with
  | .requestVote args (some reply) =>
    if reply.voteGranted then h.castVote r.target rf.currentTerm args.candidateId else h
  | .appendEntries args (some reply) =>
    if reply.success then h.accept r.target args.term
      ((leaderLog g args.term).take (args.prevLogIndex + args.entries.length)) else h
  | .installSnapshot args (some _) =>
    if rf.currentTerm = args.term ∧
        (s.procs r.target).rf.lastIncludedIndex < args.lastIncludedIndex then
      h.accept r.target args.term ((leaderLog g args.term).take args.lastIncludedIndex) else h
  | _ => h

def observeReply (g : History n C) (s u : Cluster n C S) (r : Rpc n C S) : History n C :=
  let rf := (u.procs r.caller).rf
  let h := g.advance r.caller rf.currentTerm
  if rf.state = .leader ∧ (s.procs r.caller).rf.state ≠ .leader then
    h.elect r.caller rf.currentTerm else h

def observe (g : History n C) (s : Cluster n C S) (l : Label n C) (u : Cluster n C S) :
    History n C :=
  match l with
  | .startElection p =>
    let t := (u.procs p).rf.currentTerm
    (g.advance p t).castVote p t p
  | .handle k =>
    match u.rpcs[k]? with
    | none => g
    | some r => observeHandled g s u r
  | .reply k =>
    match s.rpcs[k]? with
    | none => g
    | some r => observeReply g s u r
  | .start p command =>
    let rf := (s.procs p).rf
    if rf.state = .leader then g.extend p rf.currentTerm ⟨rf.currentTerm, command⟩ else g
  | _ => g

end

def stateAfter (sm : StateMachine C S) (l : List (LogEntry C)) : S :=
  l.foldl (fun st e => sm.apply st e.command) sm.initial

/-- The snapshot of the prefix `l`; nobody snapshots the empty one. -/
def image (sm : StateMachine C S) : List (LogEntry C) → Option S
  | [] => none
  | e :: l => some (stateAfter sm (e :: l))

theorem image_getD (sm : StateMachine C S) (l : List (LogEntry C)) :
    (image sm l).getD sm.initial = stateAfter sm l := by
  cases l <;> rfl

theorem image_of_pos (sm : StateMachine C S) {l : List (LogEntry C)} (h : 0 < l.length) :
    image sm l = some (stateAfter sm l) := by
  cases l with
  | nil => simp at h
  | cons e l => rfl

/-- Some peer has delivered a command for every index up to `i`. -/
def Reached (d : List (Delivery n C S)) (i : ℕ) : Prop :=
  ∀ j, 0 < j → j ≤ i → ∃ x ∈ d, ∃ c, x.msg = .command c j

def Decided (g : History n C) (l : List (LogEntry C)) : Prop :=
  ∃ t, Sealed LogEntry.term (Majority.quorums n) g t l

def StateInv (sm : StateMachine C S) (g : History n C) (d : List (Delivery n C S))
    (x : ℕ × S) : Prop :=
  Reached d x.1 ∧ ∃ l, Decided g l ∧ l.length = x.1 ∧ x.2 = stateAfter sm l

def MsgInv (sm : StateMachine C S) (g : History n C) (d : List (Delivery n C S)) :
    ApplyMsg C S → Prop
  | .command c i => 0 < i ∧ ∃ l e, Decided g l ∧ l[i - 1]? = some e ∧ e.command = c
  | .snapshot data _ i => 0 < i ∧ Reached d i ∧
      ∃ l, Decided g l ∧ l.length = i ∧ data = some (stateAfter sm l)

def Stream : ℕ → List (ApplyMsg C S) → ℕ → Prop
  | i, [], j => i = j
  | i, .command _ k :: ms, j => k = i + 1 ∧ Stream k ms j
  | i, .snapshot _ _ k :: ms, j => i < k ∧ Stream k ms j

/-- A restart from the persister finds the six durable fields as they are in memory. -/
structure Durable (rf : Raft n C S) : Prop where
  currentTerm : (Raft.make rf.me rf.persister).currentTerm = rf.currentTerm
  votedFor : (Raft.make rf.me rf.persister).votedFor = rf.votedFor
  log : (Raft.make rf.me rf.persister).log = rf.log
  snapshot : (Raft.make rf.me rf.persister).snapshot = rf.snapshot
  lastIncludedIndex : (Raft.make rf.me rf.persister).lastIncludedIndex = rf.lastIncludedIndex
  lastIncludedTerm : (Raft.make rf.me rf.persister).lastIncludedTerm = rf.lastIncludedTerm

structure RaftInv (sm : StateMachine C S) (g : History n C) (d : List (Delivery n C S))
    (p : Fin n) (rf : Raft n C S) : Prop where
  me : rf.me = p
  term : g.term p = rf.currentTerm
  shape : Shape (g.log p) rf
  durable : Durable rf
  voted : ∀ c l, g.vote p rf.currentTerm = some (c, l) → rf.votedFor = some c
  voter : ∀ c, rf.votedFor = some c → ∃ l, g.vote p rf.currentTerm = some (c, l)
  leads : rf.state = .leader → ∃ ld, g.lead rf.currentTerm = some ld ∧ ld.who = p
  led : ∀ ld, g.lead rf.currentTerm = some ld → ld.who = p → rf.state ≠ .candidate
  base_le : rf.lastIncludedIndex ≤ rf.commitIndex
  commit_le : rf.commitIndex ≤ (g.log p).length
  committed : Sealed LogEntry.term (Majority.quorums n) g rf.currentTerm
    ((g.log p).take rf.commitIndex)
  applied_le : rf.lastApplied ≤ rf.commitIndex
  pending : rf.pendingSnapshot = true → rf.pendingSnapshotIndex = rf.lastIncludedIndex ∧
    rf.lastApplied < rf.lastIncludedIndex ∧ rf.pendingSnapshotData = rf.snapshot
  current : rf.pendingSnapshot = false → rf.lastIncludedIndex ≤ rf.lastApplied
  snapshot : rf.snapshot = image sm ((g.log p).take rf.lastIncludedIndex)
  reached : Reached d rf.lastIncludedIndex
  acked : rf.state = .leader → ∀ q, rf.matchIndex q ≤ max rf.commitIndex (g.ack q rf.currentTerm)

structure ProcInv (sm : StateMachine C S) (g : History n C) (d : List (Delivery n C S))
    (p : Fin n) (x : Proc n C S) : Prop where
  raft : RaftInv sm g d p x.rf
  pollSelf : ∀ t, x.poll t p = .idle
  tally : x.rf.state = .candidate → ∃ A : Finset (Fin n), x.votes x.rf.currentTerm ≤ A.card ∧
    ∀ v ∈ A, (v = p ∨ x.poll x.rf.currentTerm v = .finished) ∧
      ∃ l, g.vote v x.rf.currentTerm = some (p, l)
  stream : ∃ i st rest, x.states = (i, st) :: rest ∧
    Stream i (x.applyCh ++ x.sending.toList) x.rf.lastApplied
  states : ∀ y ∈ x.states, StateInv sm g d y
  msgs : ∀ m ∈ x.applyCh ++ x.sending.toList, MsgInv sm g d m
  sent : ∀ m ∈ x.applyCh, ∃ y ∈ d, y.msg = m

/-- What a message of the leader of term `t` vouches for. -/
structure FromLeader (g : History n C) (t : ℕ) (caller target : Fin n) (ld : Leader (Fin n) (LogEntry C)) :
    Prop where
  lead : g.lead t = some ld
  who : ld.who = caller
  other : caller ≠ target

def CallInv (sm : StateMachine C S) (g : History n C) (d : List (Delivery n C S))
    (procs : Fin n → Proc n C S) (r : Rpc n C S) : Prop :=
  match r.call with
  | .requestVote args reply =>
    args.candidateId = r.caller ∧ args.term ≤ (procs r.caller).rf.currentTerm ∧
    ((procs r.caller).rf.currentTerm = args.term → (procs r.caller).rf.state = .candidate →
      args.lastLogIndex = (g.log r.caller).length ∧
      args.lastLogTerm = lastRank LogEntry.term (g.log r.caller)) ∧
    (∀ rep, reply = some rep → rep.voteGranted = true →
      ∃ l, g.vote r.target args.term = some (r.caller, l))
  | .appendEntries args reply => ∃ ld, FromLeader g args.term r.caller r.target ld ∧
    args.prevLogIndex + args.entries.length ≤ ld.log.length ∧
    args.entries = (ld.log.take (args.prevLogIndex + args.entries.length)).drop args.prevLogIndex ∧
    args.prevLogTerm = termAt ld.log args.prevLogIndex ∧
    args.leaderCommit ≤ args.prevLogIndex + args.entries.length ∧
    Sealed LogEntry.term (Majority.quorums n) g args.term (ld.log.take args.leaderCommit) ∧
    (∀ rep, reply = some rep → rep.success = true →
      args.prevLogIndex + args.entries.length ≤ g.ack r.target args.term)
  | .installSnapshot args _ => ∃ ld, FromLeader g args.term r.caller r.target ld ∧
    args.lastIncludedIndex ≤ ld.log.length ∧
    args.lastIncludedTerm = termAt ld.log args.lastIncludedIndex ∧
    args.data = image sm (ld.log.take args.lastIncludedIndex) ∧
    Sealed LogEntry.term (Majority.quorums n) g args.term (ld.log.take args.lastIncludedIndex) ∧
    Reached d args.lastIncludedIndex ∧
    (r.epoch = (procs r.caller).epoch → args.lastIncludedIndex ≤ (procs r.caller).rf.commitIndex)

def RpcInv (sm : StateMachine C S) (g : History n C) (d : List (Delivery n C S))
    (procs : Fin n → Proc n C S) (r : Rpc n C S) : Prop :=
  r.epoch ≤ (procs r.caller).epoch ∧ CallInv sm g d procs r

structure Inv (sm : StateMachine C S) (s : Cluster n C S) (g : History n C) : Prop where
  valid : Valid LogEntry.term (Majority.quorums n) g
  procs : ∀ p, ProcInv sm g s.delivered p (s.procs p)
  called : ∀ v t c l, g.vote v t = some (c, l) → t ≤ (s.procs c).rf.currentTerm
  voteUp : ∀ v c l, g.vote v (s.procs c).rf.currentTerm = some (c, l) →
    (s.procs c).rf.state = .candidate → UpToDate LogEntry.term (g.log c) l
  rpcs : ∀ r ∈ s.rpcs, RpcInv sm g s.delivered s.procs r
  delivered : ∀ x ∈ s.delivered, MsgInv sm g s.delivered x.msg

section mono
variable {sm : StateMachine C S} {g h : History n C} {d d' : List (Delivery n C S)}

theorem Reached.mono (hd : d ⊆ d') {i : ℕ} (hr : Reached d i) : Reached d' i := by
  intro j hj hi
  obtain ⟨x, hx, rest⟩ := hr j hj hi
  exact ⟨x, hd hx, rest⟩

theorem Decided.mono (hg : Grows g h) {l : List (LogEntry C)} (hl : Decided g l) : Decided h l := by
  obtain ⟨t, ht⟩ := hl
  exact ⟨t, ht.mono hg⟩

theorem StateInv.mono (hg : Grows g h) (hd : d ⊆ d') {x : ℕ × S} (hx : StateInv sm g d x) :
    StateInv sm h d' x := by
  obtain ⟨hr, l, hl, rest⟩ := hx
  exact ⟨hr.mono hd, l, hl.mono hg, rest⟩

theorem MsgInv.mono (hg : Grows g h) (hd : d ⊆ d') {m : ApplyMsg C S} (hm : MsgInv sm g d m) :
    MsgInv sm h d' m := by
  cases m with
  | command c i =>
    obtain ⟨hi, l, e, hl, rest⟩ := hm
    exact ⟨hi, l, e, hl.mono hg, rest⟩
  | snapshot data t i =>
    obtain ⟨hi, hr, l, hl, rest⟩ := hm
    exact ⟨hi, hr.mono hd, l, hl.mono hg, rest⟩

structure Untouched (g h : History n C) (q : Fin n) : Prop where
  term : h.term q = g.term q
  log : h.log q = g.log q
  vote : ∀ t, h.vote q t = g.vote q t
  lead : ∀ t ld, h.lead t = some ld → ld.who = q → g.lead t = some ld

theorem Untouched.refl (g : History n C) (q : Fin n) : Untouched g g q :=
  ⟨rfl, rfl, fun _ => rfl, fun _ _ hl _ => hl⟩

theorem Untouched.trans {k : History n C} {q : Fin n} (a : Untouched g h q) (b : Untouched h k q) :
    Untouched g k q :=
  ⟨b.term.trans a.term, b.log.trans a.log, fun t => (b.vote t).trans (a.vote t),
    fun t ld hl hw => a.lead t ld (b.lead t ld hl hw) hw⟩

theorem RaftInv.mono {p : Fin n} {rf : Raft n C S} (hi : RaftInv sm g d p rf) (hg : Grows g h)
    (hu : Untouched g h p) (hd : d ⊆ d') : RaftInv sm h d' p rf := by
  refine { hi with term := ?_, shape := ?_, voted := ?_, voter := ?_, leads := ?_, led := ?_,
                   commit_le := ?_, committed := ?_, snapshot := ?_, reached := ?_, acked := ?_ }
  · rw [hu.term]; exact hi.term
  · rw [hu.log]; exact hi.shape
  · intro c l hv
    rw [hu.vote] at hv
    exact hi.voted c l hv
  · intro c hv
    rw [hu.vote]
    exact hi.voter c hv
  · intro hl
    obtain ⟨ld, hd, hw⟩ := hi.leads hl
    obtain ⟨ld', hd', hw', _⟩ := hg.lead _ _ hd
    exact ⟨ld', hd', hw'.trans hw⟩
  · exact fun ld hl hw => hi.led ld (hu.lead _ _ hl hw) hw
  · rw [hu.log]; exact hi.commit_le
  · rw [hu.log]; exact hi.committed.mono hg
  · rw [hu.log]; exact hi.snapshot
  · exact hi.reached.mono hd
  · intro hl q
    exact (hi.acked hl q).trans (max_le_max (le_refl _) (hg.ack q _))

theorem ProcInv.mono {p : Fin n} {x : Proc n C S} (hi : ProcInv sm g d p x) (hg : Grows g h)
    (hu : Untouched g h p) (hd : d ⊆ d') : ProcInv sm h d' p x := by
  refine ⟨hi.raft.mono hg hu hd, hi.pollSelf, ?_, hi.stream, fun y hy => (hi.states y hy).mono hg hd,
    fun m hm => (hi.msgs m hm).mono hg hd, ?_⟩
  · intro hc
    obtain ⟨A, hA, hall⟩ := hi.tally hc
    refine ⟨A, hA, ?_⟩
    intro v hv
    obtain ⟨hp, l, hl⟩ := hall v hv
    exact ⟨hp, l, hg.vote _ _ _ hl⟩
  · intro m hm
    obtain ⟨y, hy, rest⟩ := hi.sent m hm
    exact ⟨y, hd hy, rest⟩

/-- How a step of `p` may change it, as far as messages in flight depend on that. -/
structure Progress (g h : History n C) (p : Fin n) (x y : Proc n C S) : Prop where
  epoch : x.epoch ≤ y.epoch
  term : x.rf.currentTerm ≤ y.rf.currentTerm
  candidate : y.rf.state = .candidate → y.rf.currentTerm = x.rf.currentTerm →
    x.rf.state = .candidate ∧ h.log p = g.log p
  commit : y.epoch = x.epoch → x.rf.commitIndex ≤ y.rf.commitIndex

theorem Progress.refl (g : History n C) (p : Fin n) (x : Proc n C S) : Progress g g p x x :=
  ⟨le_refl _, le_refl _, fun hc _ => ⟨hc, rfl⟩, fun _ => le_refl _⟩

theorem FromLeader.mono (hg : Grows g h) {t : ℕ} {a b : Fin n} {ld : Leader (Fin n) (LogEntry C)}
    (hl : FromLeader g t a b ld) : ∃ ld', FromLeader h t a b ld' ∧ ld.log <+: ld'.log := by
  obtain ⟨ld', hd, hw, _, hp⟩ := hg.lead t ld hl.lead
  exact ⟨ld', ⟨hd, hw.trans hl.who, hl.other⟩, hp⟩

theorem RpcInv.mono {procs procs' : Fin n → Proc n C S} {r : Rpc n C S}
    (hi : RpcInv sm g d procs r) (hg : Grows g h) (hd : d ⊆ d')
    (hp : Progress g h r.caller (procs r.caller) (procs' r.caller)) : RpcInv sm h d' procs' r := by
  obtain ⟨he, hc⟩ := hi
  refine ⟨he.trans hp.epoch, ?_⟩
  obtain ⟨caller, epoch, target, call⟩ := r
  cases call with
  | requestVote args reply =>
    obtain ⟨hid, ht, hlog, hrep⟩ := hc
    refine ⟨hid, ht.trans hp.term, ?_, ?_⟩
    · intro hct hst
      have hterm := hp.term
      obtain ⟨old, same⟩ := hp.candidate hst (by dsimp only at *; omega)
      rw [same]
      exact hlog (by dsimp only at *; omega) old
    · intro rep hr hv
      obtain ⟨l, hl⟩ := hrep rep hr hv
      exact ⟨l, hg.vote _ _ _ hl⟩
  | appendEntries args reply =>
    obtain ⟨ld, hf, hlen, hent, hterm, hlc, hs, hrep⟩ := hc
    obtain ⟨ld', hf', hpre⟩ := hf.mono hg
    refine ⟨ld', hf', hlen.trans hpre.length_le, ?_, ?_, hlc, ?_, ?_⟩
    · rw [take_initial hpre hlen]
      exact hent
    · rw [termAt_initial hpre (by omega)]
      exact hterm
    · rw [take_initial hpre (by omega)]
      exact hs.mono hg
    · exact fun rep hr hsucc => (hrep rep hr hsucc).trans (hg.ack _ _)
  | installSnapshot args reply =>
    obtain ⟨ld, hf, hlen, hterm, hdata, hs, hr, hcommit⟩ := hc
    obtain ⟨ld', hf', hpre⟩ := hf.mono hg
    refine ⟨ld', hf', hlen.trans hpre.length_le, ?_, ?_, ?_, hr.mono hd, ?_⟩
    · rw [termAt_initial hpre hlen]
      exact hterm
    · rw [take_initial hpre hlen]
      exact hdata
    · rw [take_initial hpre hlen]
      exact hs.mono hg
    · intro hep
      have hee : (procs' caller).epoch = (procs caller).epoch := le_antisymm (hep ▸ he) hp.epoch
      exact (hcommit (hep.trans hee)).trans (hp.commit hee)

end mono
end DistributedLabs.RaftHistory
