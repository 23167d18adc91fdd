import DistributedLabs.RaftModel
import DistributedLabs.Runs

set_option autoImplicit false

/-!
# A cluster of Raft peers, its network and its services

The scheduler picks one critical section, message or channel operation at a time.
An RPC in flight is one record: the request until the handler has run, then the
reply too. It can be delivered late, out of order or never, and a reply is taken
only by the goroutine that sent the request, which dies with its process.
-/
namespace DistributedLabs.RaftCluster
open RaftModel Runs

structure StateMachine (C S : Type) where
  initial : S
  apply : S → Option C → S

inductive Poll where
  | idle | spawned | calling | finished
deriving DecidableEq

inductive Call (n : ℕ) (C S : Type) where
  | requestVote (args : RequestVoteArgs n) (reply : Option RequestVoteReply)
  | appendEntries (args : AppendEntriesArgs n C) (reply : Option AppendEntriesReply)
  | installSnapshot (args : InstallSnapshotArgs n S) (reply : Option InstallSnapshotReply)

structure Rpc (n : ℕ) (C S : Type) where
  caller : Fin n
  /-- The incarnation of the caller that waits for the reply. -/
  epoch : ℕ
  target : Fin n
  call : Call n C S

/-- A server process: the Raft peer, its goroutines' locals and the service. -/
structure Proc (n : ℕ) (C S : Type) where
  rf : Raft n C S
  epoch : ℕ
  /-- The ticker has seen a timeout and is about to call `startElection`. -/
  shouldStart : Bool
  /-- The `votes` counter of the election of each term. -/
  votes : ℕ → ℕ
  poll : ℕ → Fin n → Poll
  /-- The message the applier is sending, with the mutex released. -/
  sending : Option (ApplyMsg C S)
  applyCh : List (ApplyMsg C S)
  /-- The service's states with their indices, the newest first. -/
  states : List (ℕ × S)

structure Delivery (n : ℕ) (C S : Type) where
  peer : Fin n
  epoch : ℕ
  msg : ApplyMsg C S

structure Cluster (n : ℕ) (C S : Type) where
  procs : Fin n → Proc n C S
  rpcs : List (Rpc n C S)
  /-- Every message ever sent on an `applyCh`, the newest first. -/
  delivered : List (Delivery n C S)

inductive Label (n : ℕ) (C : Type) where
  | tick (p : Fin n)
  | startElection (p : Fin n)
  | sendRequestVote (p : Fin n) (term : ℕ) (peer : Fin n)
  | replicateOnce (p peer : Fin n)
  | handle (k : ℕ)
  | reply (k : ℕ)
  | lose (k : ℕ)
  | start (p : Fin n) (command : Option C)
  | snapshot (p : Fin n) (k : ℕ)
  | applier (p : Fin n)
  | send (p : Fin n)
  | receive (p : Fin n)
  | restart (p : Fin n)

variable {n : ℕ} {C S : Type}

def Proc.finishPoll (x : Proc n C S) (term : ℕ) (peer : Fin n) (rf : Raft n C S) (votes : ℕ) :
    Proc n C S :=
  { x with
    rf := rf
    votes := Function.update x.votes term votes
    poll := Function.update x.poll term (Function.update (x.poll term) peer .finished) }

/-- `Make`, after the service has restored what the persister holds. -/
def boot (sm : StateMachine C S) (p : Fin n) (epoch : ℕ) (persister : Persister n C S) :
    Proc n C S :=
  let rf := Raft.make p persister
  { rf := rf
    epoch := epoch
    shouldStart := false
    votes := fun _ => 0
    poll := fun _ _ => .idle
    sending := none
    applyCh := []
    states := [(rf.lastIncludedIndex, rf.snapshot.getD sm.initial)] }

def initial (sm : StateMachine C S) : Cluster n C S :=
  { procs := fun p => boot sm p 0 ⟨none, none⟩
    rpcs := []
    delivered := [] }

namespace Cluster

def setProc (s : Cluster n C S) (p : Fin n) (x : Proc n C S) : Cluster n C S :=
  { s with procs := Function.update s.procs p x }

def setRaft (s : Cluster n C S) (p : Fin n) (rf : Raft n C S) : Cluster n C S :=
  s.setProc p { s.procs p with rf := rf }

def handle (s : Cluster n C S) (k : ℕ) : Option (Cluster n C S) := do
  let r ← s.rpcs[k]?
  let rf := (s.procs r.target).rf
  match r.call with
  | .requestVote args none => do
    let (rf, reply) ← rf.requestVote args
    some { s.setRaft r.target rf with
      rpcs := s.rpcs.set k { r with call := .requestVote args (some reply) } }
  | .appendEntries args none => do
    let (rf, reply) ← rf.appendEntries args
    some { s.setRaft r.target rf with
      rpcs := s.rpcs.set k { r with call := .appendEntries args (some reply) } }
  | .installSnapshot args none => do
    let (rf, reply) ← rf.installSnapshot args
    some { s.setRaft r.target rf with
      rpcs := s.rpcs.set k { r with call := .installSnapshot args (some reply) } }
  | _ => none

def reply (s : Cluster n C S) (k : ℕ) : Option (Cluster n C S) := do
  let r ← s.rpcs[k]?
  let x := s.procs r.caller
  if r.epoch ≠ x.epoch then none
  else
    match r.call with
    | .requestVote args (some reply) =>
      if x.poll args.term r.target ≠ .calling then none
      else
        let (rf, votes) := x.rf.voteReply args.term (x.votes args.term) reply
        some { s.setProc r.caller (x.finishPoll args.term r.target rf votes) with
          rpcs := s.rpcs.eraseIdx k }
    | .appendEntries args (some reply) => do
      let rf ← x.rf.appendReply r.target args reply
      some { s.setRaft r.caller rf with rpcs := s.rpcs.eraseIdx k }
    | .installSnapshot args (some reply) =>
      some { s.setRaft r.caller (x.rf.snapshotReply r.target args reply) with
        rpcs := s.rpcs.eraseIdx k }
    | _ => none

def sendRequestVote (s : Cluster n C S) (p : Fin n) (term : ℕ) (peer : Fin n) :
    Option (Cluster n C S) :=
  let x := s.procs p
  if x.poll term peer ≠ .spawned then none
  else do
    let request ← x.rf.voteRequest term
    let next := fun stage => s.setProc p { x with
      poll := Function.update x.poll term (Function.update (x.poll term) peer stage) }
    match request with
    | none => some (next .finished)
    | some args => some { next .calling with
        rpcs := ⟨p, x.epoch, peer, .requestVote args none⟩ :: s.rpcs }

def replicateOnce (s : Cluster n C S) (p peer : Fin n) : Option (Cluster n C S) :=
  if peer = p then none
  else do
    let x := s.procs p
    let request ← x.rf.replicateOnce peer
    match request with
    | none => some s
    | some (.append args) => some { s with
        rpcs := ⟨p, x.epoch, peer, .appendEntries args none⟩ :: s.rpcs }
    | some (.snapshot args) => some { s with
        rpcs := ⟨p, x.epoch, peer, .installSnapshot args none⟩ :: s.rpcs }

def receive (sm : StateMachine C S) (s : Cluster n C S) (p : Fin n) : Option (Cluster n C S) :=
  let x := s.procs p
  match x.applyCh, x.states with
  | .command c i :: rest, (_, st) :: _ =>
    some (s.setProc p { x with applyCh := rest, states := (i, sm.apply st c) :: x.states })
  | .snapshot d _ i :: rest, _ =>
    some (s.setProc p { x with applyCh := rest, states := (i, d.getD sm.initial) :: x.states })
  | _, _ => none

/-- One step of the scheduler; `none` when the step is not possible or panics. -/
def exec (sm : StateMachine C S) (s : Cluster n C S) : Label n C → Option (Cluster n C S)
  | .tick p =>
    let x := s.procs p
    if x.rf.state = .leader then none else some (s.setProc p { x with shouldStart := true })
  | .startElection p =>
    let x := s.procs p
    if x.shouldStart then
      let rf := x.rf.startElection
      some (s.setProc p { x with
        rf := rf
        shouldStart := false
        votes := Function.update x.votes rf.currentTerm 1
        poll := Function.update x.poll rf.currentTerm
          (fun i => if i = p then .idle else .spawned) })
    else none
  | .sendRequestVote p term peer => s.sendRequestVote p term peer
  | .replicateOnce p peer => s.replicateOnce p peer
  | .handle k => s.handle k
  | .reply k => s.reply k
  | .lose k => if k < s.rpcs.length then some { s with rpcs := s.rpcs.eraseIdx k } else none
  | .start p command => some (s.setRaft p ((s.procs p).rf.start command).1)
  | .snapshot p k => do
    let x := s.procs p
    let (i, st) ← x.states[k]?
    let rf ← x.rf.takeSnapshot i st
    some (s.setRaft p rf)
  | .applier p =>
    let x := s.procs p
    if x.sending.isSome || !x.rf.applierReady then none
    else do
      let (rf, msg) ← x.rf.applier
      some (s.setProc p { x with rf := rf, sending := some msg })
  | .send p => do
    let x := s.procs p
    let msg ← x.sending
    some { s.setProc p { x with sending := none, applyCh := x.applyCh ++ [msg] } with
      delivered := ⟨p, x.epoch, msg⟩ :: s.delivered }
  | .receive p => s.receive sm p
  | .restart p =>
    let x := s.procs p
    some (s.setProc p (boot sm p (x.epoch + 1) x.rf.persister))

end Cluster

section specs
variable {s u : Cluster n C S} {k : ℕ}

inductive Handled (rf rf' : Raft n C S) : Call n C S → Prop where
  | requestVote (args : RequestVoteArgs n) (reply : RequestVoteReply)
      (h : rf.requestVote args = some (rf', reply)) : Handled rf rf' (.requestVote args (some reply))
  | appendEntries (args : AppendEntriesArgs n C) (reply : AppendEntriesReply)
      (h : rf.appendEntries args = some (rf', reply)) :
      Handled rf rf' (.appendEntries args (some reply))
  | installSnapshot (args : InstallSnapshotArgs n S) (reply : InstallSnapshotReply)
      (h : rf.installSnapshot args = some (rf', reply)) :
      Handled rf rf' (.installSnapshot args (some reply))

theorem handle_spec (h : s.handle k = some u) : ∃ r call rf', s.rpcs[k]? = some r ∧
    Handled (s.procs r.target).rf rf' call ∧
    u = { s.setRaft r.target rf' with rpcs := s.rpcs.set k { r with call := call } } := by
  obtain ⟨⟨caller, epoch, target, call⟩, hk, h⟩ := Option.bind_eq_some_iff.mp h
  cases call with
  | requestVote args reply =>
    cases reply with
    | some _ => cases h
    | none =>
      obtain ⟨⟨rf', reply⟩, hx, h⟩ := Option.bind_eq_some_iff.mp h
      exact ⟨_, _, rf', hk, .requestVote args reply hx, (Option.some.inj h).symm⟩
  | appendEntries args reply =>
    cases reply with
    | some _ => cases h
    | none =>
      obtain ⟨⟨rf', reply⟩, hx, h⟩ := Option.bind_eq_some_iff.mp h
      exact ⟨_, _, rf', hk, .appendEntries args reply hx, (Option.some.inj h).symm⟩
  | installSnapshot args reply =>
    cases reply with
    | some _ => cases h
    | none =>
      obtain ⟨⟨rf', reply⟩, hx, h⟩ := Option.bind_eq_some_iff.mp h
      exact ⟨_, _, rf', hk, .installSnapshot args reply hx, (Option.some.inj h).symm⟩

/-- The handler a step has run is the one whose reply it leaves on the wire. -/
theorem handle_handled {r : Rpc n C S} (h : s.handle k = some u) (hr : u.rpcs[k]? = some r) :
    Handled (s.procs r.target).rf (u.procs r.target).rf r.call := by
  obtain ⟨r', call, rf', hk, hh, rfl⟩ := handle_spec h
  have hlt := (List.getElem?_eq_some_iff.mp hk).choose
  simp only [List.getElem?_set_self hlt, Option.some.injEq] at hr
  subst hr
  simpa [Cluster.setRaft, Cluster.setProc] using hh

inductive Replied (x : Proc n C S) (peer : Fin n) (y : Proc n C S) : Call n C S → Prop where
  | requestVote (args : RequestVoteArgs n) (reply : RequestVoteReply) (rf : Raft n C S) (votes : ℕ)
      (h : x.rf.voteReply args.term (x.votes args.term) reply = (rf, votes))
      (hy : y = x.finishPoll args.term peer rf votes) :
      Replied x peer y (.requestVote args (some reply))
  | appendEntries (args : AppendEntriesArgs n C) (reply : AppendEntriesReply) (rf : Raft n C S)
      (h : x.rf.appendReply peer args reply = some rf) (hy : y = { x with rf := rf }) :
      Replied x peer y (.appendEntries args (some reply))
  | installSnapshot (args : InstallSnapshotArgs n S) (reply : InstallSnapshotReply)
      (hy : y = { x with rf := x.rf.snapshotReply peer args reply }) :
      Replied x peer y (.installSnapshot args (some reply))

theorem reply_spec (h : s.reply k = some u) : ∃ r y, s.rpcs[k]? = some r ∧
    r.epoch = (s.procs r.caller).epoch ∧ Replied (s.procs r.caller) r.target y r.call ∧
    u = { s.setProc r.caller y with rpcs := s.rpcs.eraseIdx k } := by
  obtain ⟨⟨caller, epoch, target, call⟩, hk, h⟩ := Option.bind_eq_some_iff.mp h
  dsimp only at h
  split_ifs at h with hepoch
  cases call with
  | requestVote args reply =>
    cases reply with
    | none => cases h
    | some reply =>
      dsimp only at h
      split_ifs at h
      exact ⟨_, _, hk, not_not.mp hepoch, .requestVote args reply _ _ rfl rfl,
        (Option.some.inj h).symm⟩
  | appendEntries args reply =>
    cases reply with
    | none => cases h
    | some reply =>
      obtain ⟨rf, hx, h⟩ := Option.bind_eq_some_iff.mp h
      exact ⟨_, _, hk, not_not.mp hepoch, .appendEntries args reply rf hx rfl,
        (Option.some.inj h).symm⟩
  | installSnapshot args reply =>
    cases reply with
    | none => cases h
    | some reply =>
      exact ⟨_, _, hk, not_not.mp hepoch, .installSnapshot args reply rfl, (Option.some.inj h).symm⟩

variable {sm : StateMachine C S}

inductive Stepped (sm : StateMachine C S) (s : Cluster n C S) :
    Label n C → Cluster n C S → Prop where
  | tick (p : Fin n) :
      Stepped sm s (.tick p) (s.setProc p { s.procs p with shouldStart := true })
  | startElection (p : Fin n) (votes : ℕ → ℕ) (poll : ℕ → Fin n → Poll) :
      Stepped sm s (.startElection p) (s.setProc p { s.procs p with
        rf := (s.procs p).rf.startElection
        shouldStart := false
        votes := votes
        poll := poll })
  | skipVote (p : Fin n) (term : ℕ) (peer : Fin n) (poll : ℕ → Fin n → Poll) :
      Stepped sm s (.sendRequestVote p term peer) (s.setProc p { s.procs p with poll := poll })
  | sendVote (p : Fin n) (term : ℕ) (peer : Fin n) (poll : ℕ → Fin n → Poll)
      (args : RequestVoteArgs n) (h : (s.procs p).rf.voteRequest term = some (some args)) :
      Stepped sm s (.sendRequestVote p term peer)
        { s.setProc p { s.procs p with poll := poll } with
          rpcs := ⟨p, (s.procs p).epoch, peer, .requestVote args none⟩ :: s.rpcs }
  | skipReplicate (p peer : Fin n) : Stepped sm s (.replicateOnce p peer) s
  | sendAppend (p peer : Fin n) (args : AppendEntriesArgs n C)
      (h : (s.procs p).rf.replicateOnce peer = some (some (.append args))) :
      Stepped sm s (.replicateOnce p peer) { s with
        rpcs := ⟨p, (s.procs p).epoch, peer, .appendEntries args none⟩ :: s.rpcs }
  | sendSnapshot (p peer : Fin n) (args : InstallSnapshotArgs n S)
      (h : (s.procs p).rf.replicateOnce peer = some (some (.snapshot args))) :
      Stepped sm s (.replicateOnce p peer) { s with
        rpcs := ⟨p, (s.procs p).epoch, peer, .installSnapshot args none⟩ :: s.rpcs }
  | handle (k : ℕ) (r : Rpc n C S) (call : Call n C S) (rf : Raft n C S)
      (hk : s.rpcs[k]? = some r) (h : Handled (s.procs r.target).rf rf call) :
      Stepped sm s (.handle k)
        { s.setRaft r.target rf with rpcs := s.rpcs.set k { r with call := call } }
  | reply (k : ℕ) (r : Rpc n C S) (y : Proc n C S) (hk : s.rpcs[k]? = some r)
      (h : Replied (s.procs r.caller) r.target y r.call) :
      Stepped sm s (.reply k) { s.setProc r.caller y with rpcs := s.rpcs.eraseIdx k }
  | lose (k : ℕ) : Stepped sm s (.lose k) { s with rpcs := s.rpcs.eraseIdx k }
  | start (p : Fin n) (command : Option C) :
      Stepped sm s (.start p command) (s.setRaft p ((s.procs p).rf.start command).1)
  | snapshot (p : Fin n) (k i : ℕ) (st : S) (rf : Raft n C S)
      (h : (s.procs p).rf.takeSnapshot i st = some rf) :
      Stepped sm s (.snapshot p k) (s.setRaft p rf)
  | applier (p : Fin n) (rf : Raft n C S) (msg : ApplyMsg C S)
      (free : (s.procs p).sending = none) (ready : (s.procs p).rf.applierReady = true)
      (h : (s.procs p).rf.applier = some (rf, msg)) :
      Stepped sm s (.applier p) (s.setProc p { s.procs p with rf := rf, sending := some msg })
  | send (p : Fin n) (msg : ApplyMsg C S) (h : (s.procs p).sending = some msg) :
      Stepped sm s (.send p)
        { s.setProc p { s.procs p with
            sending := none
            applyCh := (s.procs p).applyCh ++ [msg] } with
          delivered := ⟨p, (s.procs p).epoch, msg⟩ :: s.delivered }
  | receive (p : Fin n) (applyCh : List (ApplyMsg C S)) (states : List (ℕ × S)) :
      Stepped sm s (.receive p)
        (s.setProc p { s.procs p with applyCh := applyCh, states := states })
  | restart (p : Fin n) :
      Stepped sm s (.restart p)
        (s.setProc p (boot sm p ((s.procs p).epoch + 1) (s.procs p).rf.persister))

theorem exec_spec {l : Label n C} (h : s.exec sm l = some u) : Stepped sm s l u := by
  cases l with
  | tick p =>
    dsimp only [Cluster.exec] at h
    split_ifs at h
    cases h
    exact .tick p
  | startElection p =>
    dsimp only [Cluster.exec] at h
    split_ifs at h
    cases h
    exact .startElection p _ _
  | sendRequestVote p term peer =>
    dsimp only [Cluster.exec, Cluster.sendRequestVote] at h
    split_ifs at h
    obtain ⟨_ | args, hargs, h⟩ := Option.bind_eq_some_iff.mp h
    · cases h
      exact .skipVote p term peer _
    · cases h
      exact .sendVote p term peer _ args hargs
  | replicateOnce p peer =>
    dsimp only [Cluster.exec, Cluster.replicateOnce] at h
    split_ifs at h
    obtain ⟨_ | (args | args), hargs, h⟩ := Option.bind_eq_some_iff.mp h
    · cases h
      exact .skipReplicate p peer
    · cases h
      exact .sendAppend p peer args hargs
    · cases h
      exact .sendSnapshot p peer args hargs
  | handle k =>
    obtain ⟨r, call, rf, hk, hh, rfl⟩ := handle_spec h
    exact .handle k r call rf hk hh
  | reply k =>
    obtain ⟨r, y, hk, _, hr, rfl⟩ := reply_spec h
    exact .reply k r y hk hr
  | lose k =>
    dsimp only [Cluster.exec] at h
    split_ifs at h
    cases h
    exact .lose k
  | start p command =>
    cases h
    exact .start p command
  | snapshot p k =>
    obtain ⟨⟨i, st⟩, _, h⟩ := Option.bind_eq_some_iff.mp h
    obtain ⟨rf, hrf, h⟩ := Option.bind_eq_some_iff.mp h
    cases h
    exact .snapshot p k i st rf hrf
  | applier p =>
    dsimp only [Cluster.exec] at h
    split_ifs at h with hwait
    obtain ⟨⟨rf, msg⟩, hrf, h⟩ := Option.bind_eq_some_iff.mp h
    cases h
    have hgo : (s.procs p).sending = none ∧ (s.procs p).rf.applierReady = true := by
      simpa using hwait
    exact .applier p rf msg hgo.1 hgo.2 hrf
  | send p =>
    obtain ⟨msg, hmsg, h⟩ := Option.bind_eq_some_iff.mp h
    cases h
    exact .send p msg hmsg
  | receive p =>
    dsimp only [Cluster.exec, Cluster.receive] at h
    split at h
    · cases h
      exact .receive p _ _
    · cases h
      exact .receive p _ _
    · cases h
  | restart p =>
    cases h
    exact .restart p

end specs

def cluster (n : ℕ) (sm : StateMachine C S) : Machine (Cluster n C S) (Label n C) where
  init s := s = initial sm
  step s l u := s.exec sm l = some u

end DistributedLabs.RaftCluster
