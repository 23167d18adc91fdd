import Mathlib.Data.List.OfFn
import Mathlib.Data.List.Sort
import Mathlib.Logic.Function.Basic
import Mathlib.Tactic.Common

set_option autoImplicit false

/-!
# One Raft peer

Each definition is one critical section of `raft1/raft.go`: the stretch between
taking and releasing `rf.mu`. An index or a slice out of range panics in the
source and is `none` here. Commands are `interface{}` values, with `none` for
`nil`; snapshots are the service's encoded states, with `none` for `nil`. Timers,
trigger channels and the condition variable only decide when a section runs and
are left to the scheduler.
-/
namespace DistributedLabs.RaftModel

structure LogEntry (C : Type) where
  term : ℕ
  command : Option C
deriving DecidableEq

inductive Role where
  | follower | candidate | leader
deriving DecidableEq

/-- The values `persist` encodes, in its order. -/
structure RaftState (n : ℕ) (C : Type) where
  currentTerm : ℕ
  votedFor : Option (Fin n)
  log : List (LogEntry C)
  lastIncludedIndex : ℕ
  lastIncludedTerm : ℕ

structure Persister (n : ℕ) (C S : Type) where
  -- `none` until the first `Save`
  raftstate : Option (RaftState n C)
  snapshot : Option S

structure Raft (n : ℕ) (C S : Type) where
  persister : Persister n C S
  me : Fin n
  currentTerm : ℕ
  votedFor : Option (Fin n)
  /-- `log[0]` is the entry at `lastIncludedIndex`. -/
  log : List (LogEntry C)
  snapshot : Option S
  lastIncludedIndex : ℕ
  lastIncludedTerm : ℕ
  state : Role
  commitIndex : ℕ
  lastApplied : ℕ
  nextIndex : Fin n → ℕ
  matchIndex : Fin n → ℕ
  pendingSnapshot : Bool
  pendingSnapshotData : Option S
  pendingSnapshotIndex : ℕ
  pendingSnapshotTerm : ℕ

structure RequestVoteArgs (n : ℕ) where
  term : ℕ
  candidateId : Fin n
  lastLogIndex : ℕ
  lastLogTerm : ℕ

structure RequestVoteReply where
  term : ℕ
  voteGranted : Bool

structure AppendEntriesArgs (n : ℕ) (C : Type) where
  term : ℕ
  leaderId : Fin n
  prevLogIndex : ℕ
  prevLogTerm : ℕ
  entries : List (LogEntry C)
  leaderCommit : ℕ

/-- `xTerm` is `-1` when the follower has no entry at `PrevLogIndex`. -/
structure AppendEntriesReply where
  term : ℕ
  success : Bool
  xTerm : ℤ
  xIndex : ℕ
  xLen : ℕ

structure InstallSnapshotArgs (n : ℕ) (S : Type) where
  term : ℕ
  leaderId : Fin n
  lastIncludedIndex : ℕ
  lastIncludedTerm : ℕ
  data : Option S

structure InstallSnapshotReply where
  term : ℕ

/-- Exactly one of `CommandValid` and `SnapshotValid` is set in the source. -/
inductive ApplyMsg (C S : Type) where
  | command (command : Option C) (commandIndex : ℕ)
  | snapshot (data : Option S) (snapshotTerm snapshotIndex : ℕ)

def sliceFrom {α : Type} (l : List α) (k : ℕ) : Option (List α) :=
  if k ≤ l.length then some (l.drop k) else none

def sliceTo {α : Type} (l : List α) (k : ℕ) : Option (List α) :=
  if k ≤ l.length then some (l.take k) else none

def clearHead {C : Type} : List (LogEntry C) → Option (List (LogEntry C))
  | [] => none
  | e :: es => some ({ e with command := none } :: es)

namespace Raft
variable {n : ℕ} {C S : Type}

def lastLogIndex (rf : Raft n C S) : ℕ := rf.lastIncludedIndex + rf.log.length - 1

/-- The position of `index` in `rf.log`; a negative one panics where it is used. -/
def offset (rf : Raft n C S) (index : ℕ) : Option ℕ :=
  if rf.lastIncludedIndex ≤ index then some (index - rf.lastIncludedIndex) else none

def entryAt (rf : Raft n C S) (index : ℕ) : Option (LogEntry C) := do
  let i ← rf.offset index
  rf.log[i]?

def persist (rf : Raft n C S) : Raft n C S :=
  { rf with persister := ⟨some ⟨rf.currentTerm, rf.votedFor, rf.log, rf.lastIncludedIndex,
      rf.lastIncludedTerm⟩, rf.snapshot⟩ }

def readPersist (rf : Raft n C S) : Option (RaftState n C) → Raft n C S
  | none => rf
  | some d => { rf with
      currentTerm := d.currentTerm
      votedFor := d.votedFor
      log := d.log
      lastIncludedIndex := d.lastIncludedIndex
      lastIncludedTerm := d.lastIncludedTerm }

def compacted (rf : Raft n C S) (index : ℕ) : Option (List (LogEntry C)) := do
  let i ← rf.offset index
  let newLog ← sliceFrom rf.log i
  clearHead newLog

/-- `Snapshot(index, snapshot)`. -/
def takeSnapshot (rf : Raft n C S) (index : ℕ) (snapshot : S) : Option (Raft n C S) :=
  if index ≤ rf.lastIncludedIndex ∨ rf.lastApplied < index then some rf
  else do
    let e ← rf.entryAt index
    let newLog ← rf.compacted index
    some { rf with
      log := newLog
      lastIncludedIndex := index
      lastIncludedTerm := e.term
      snapshot := some snapshot }.persist

def toFollower (rf : Raft n C S) (term : ℕ) : Raft n C S :=
  { rf with currentTerm := term, state := .follower, votedFor := none }.persist

def observeTerm (rf : Raft n C S) (term : ℕ) : Raft n C S :=
  if rf.currentTerm < term then rf.toFollower term else rf

def requestVote (rf : Raft n C S) (args : RequestVoteArgs n) :
    Option (Raft n C S × RequestVoteReply) :=
  let rf := rf.observeTerm args.term
  if args.term < rf.currentTerm then some (rf, ⟨rf.currentTerm, false⟩)
  else do
    let lastIdx := rf.lastLogIndex
    let last ← rf.entryAt lastIdx
    let upToDate := last.term < args.lastLogTerm ∨
      (args.lastLogTerm = last.term ∧ lastIdx ≤ args.lastLogIndex)
    if ¬ upToDate then some (rf, ⟨rf.currentTerm, false⟩)
    else if rf.votedFor = none ∨ rf.votedFor = some args.candidateId then
      some ({ rf with votedFor := some args.candidateId }.persist, ⟨rf.currentTerm, true⟩)
    else some (rf, ⟨rf.currentTerm, false⟩)

/-- The section of `startElection` that precedes its goroutines. -/
def startElection (rf : Raft n C S) : Raft n C S :=
  { rf with currentTerm := rf.currentTerm + 1, state := .candidate, votedFor := some rf.me }.persist

def voteRequest (rf : Raft n C S) (term : ℕ) : Option (Option (RequestVoteArgs n)) :=
  -- the election is over
  if rf.currentTerm ≠ term ∨ rf.state ≠ .candidate then some none
  else do
    let lastIdx := rf.lastLogIndex
    let last ← rf.entryAt lastIdx
    some (some ⟨term, rf.me, lastIdx, last.term⟩)

def becomeLeader (rf : Raft n C S) (term : ℕ) : Raft n C S :=
  if rf.state = .leader ∨ rf.currentTerm ≠ term then rf
  else { rf with
    state := .leader
    nextIndex := fun _ => rf.lastLogIndex + 1
    matchIndex := fun i => if i = rf.me then rf.lastLogIndex else 0 }

/-- The goroutine's second section; `votes` is the counter its election shares. -/
def voteReply (rf : Raft n C S) (term votes : ℕ) (reply : RequestVoteReply) : Raft n C S × ℕ :=
  if rf.currentTerm < reply.term then (rf.toFollower reply.term, votes)
  else if rf.currentTerm ≠ term ∨ rf.state ≠ .candidate then (rf, votes)
  else if reply.voteGranted then
    if n / 2 < votes + 1 then (rf.becomeLeader term, votes + 1) else (rf, votes + 1)
  else (rf, votes)

def firstOfTerm (rf : Raft n C S) (xTerm : ℕ) : ℕ → Option ℕ
  | 0 => some 0
  | i + 1 =>
    -- `for i > rf.lastIncludedIndex && rf.entryAt(i-1).Term == xTerm { i-- }`
    if rf.lastIncludedIndex < i + 1 then do
      let e ← rf.entryAt i
      if e.term = xTerm then firstOfTerm rf xTerm i else some (i + 1)
    else some (i + 1)

/-- The loop over `args.Entries`, from the entry with position `i` in it on. -/
def mergeEntries (rf : Raft n C S) (prevLogIndex i : ℕ) : List (LogEntry C) → Option (Raft n C S)
  | [] => some rf
  | e :: es =>
    let pos := prevLogIndex + 1 + i
    if rf.lastLogIndex < pos then
      mergeEntries { rf with log := rf.log ++ [e] } prevLogIndex (i + 1) es
    else do
      let x ← rf.entryAt pos
      if x.term ≠ e.term then
        let offset ← rf.offset pos
        let kept ← sliceTo rf.log offset
        some { rf with log := kept ++ (e :: es) }
      else mergeEntries rf prevLogIndex (i + 1) es

/-- Case 4 of `AppendEntries`. -/
def followCommit (rf : Raft n C S) (leaderCommit : ℕ) : Raft n C S :=
  if rf.commitIndex < leaderCommit then
    { rf with commitIndex :=
        if leaderCommit < rf.lastLogIndex then leaderCommit else rf.lastLogIndex }
  else rf

def follow (rf : Raft n C S) (term : ℕ) : Raft n C S :=
  if rf.currentTerm < term then rf.toFollower term else { rf with state := .follower }

def appendEntries (rf : Raft n C S) (args : AppendEntriesArgs n C) :
    Option (Raft n C S × AppendEntriesReply) :=
  if args.term < rf.currentTerm then some (rf, ⟨rf.currentTerm, false, 0, 0, 0⟩)
  else
    let rf := rf.follow args.term
    if args.prevLogIndex < rf.lastIncludedIndex then
      some (rf, ⟨rf.currentTerm, false, -1, 0, rf.lastIncludedIndex + 1⟩)
    else if rf.lastLogIndex < args.prevLogIndex then
      some (rf, ⟨rf.currentTerm, false, -1, 0, rf.lastLogIndex + 1⟩)
    else do
      let prev ← rf.entryAt args.prevLogIndex
      if prev.term ≠ args.prevLogTerm then
        let xIndex ← rf.firstOfTerm prev.term args.prevLogIndex
        some (rf, ⟨rf.currentTerm, false, prev.term, xIndex, rf.lastLogIndex + 1⟩)
      else
        let rf ← rf.mergeEntries args.prevLogIndex 0 args.entries
        let rf := if 0 < args.entries.length then rf.persist else rf
        some (rf.followCommit args.leaderCommit, ⟨rf.currentTerm, true, 0, 0, 0⟩)

def installedLog (rf : Raft n C S) (args : InstallSnapshotArgs n S) :
    Option (List (LogEntry C)) :=
  if args.lastIncludedIndex ≤ rf.lastLogIndex then do
    let e ← rf.entryAt args.lastIncludedIndex
    -- the suffix behind a matching entry is kept
    if e.term = args.lastIncludedTerm then rf.compacted args.lastIncludedIndex
    else some [⟨args.lastIncludedTerm, none⟩]
  else some [⟨args.lastIncludedTerm, none⟩]

def install (rf : Raft n C S) (args : InstallSnapshotArgs n S) (newLog : List (LogEntry C)) :
    Raft n C S :=
  let rf := { rf with
    log := newLog
    lastIncludedIndex := args.lastIncludedIndex
    lastIncludedTerm := args.lastIncludedTerm
    snapshot := args.data
    commitIndex := if rf.commitIndex < args.lastIncludedIndex then args.lastIncludedIndex
      else rf.commitIndex }.persist
  -- the applier gets the snapshot only if it is ahead
  if rf.lastApplied < args.lastIncludedIndex then
    { rf with
      pendingSnapshot := true
      pendingSnapshotData := args.data
      pendingSnapshotIndex := args.lastIncludedIndex
      pendingSnapshotTerm := args.lastIncludedTerm }
  else rf

def installSnapshot (rf : Raft n C S) (args : InstallSnapshotArgs n S) :
    Option (Raft n C S × InstallSnapshotReply) :=
  if args.term < rf.currentTerm then some (rf, ⟨rf.currentTerm⟩)
  else
    let rf := rf.follow args.term
    if args.lastIncludedIndex ≤ rf.lastIncludedIndex then some (rf, ⟨rf.currentTerm⟩)
    else do
      let newLog ← rf.installedLog args
      some (rf.install args newLog, ⟨rf.currentTerm⟩)

end Raft

inductive Replication (n : ℕ) (C S : Type) where
  | append (args : AppendEntriesArgs n C)
  | snapshot (args : InstallSnapshotArgs n S)

namespace Raft
variable {n : ℕ} {C S : Type}

def entriesAfter (rf : Raft n C S) (prevIndex : ℕ) : Option (List (LogEntry C)) :=
  if prevIndex < rf.lastLogIndex then do
    let start ← rf.offset (prevIndex + 1)
    sliceFrom rf.log start
  else some []

def replicateOnce (rf : Raft n C S) (peer : Fin n) : Option (Option (Replication n C S)) :=
  if rf.state ≠ .leader then some none
  else if rf.nextIndex peer ≤ rf.lastIncludedIndex then
    some (some (.snapshot ⟨rf.currentTerm, rf.me, rf.lastIncludedIndex, rf.lastIncludedTerm,
      rf.snapshot⟩))
  else
    let prevIndex := rf.nextIndex peer - 1
    if rf.lastLogIndex < prevIndex then some none
    else do
      let entries ← rf.entriesAfter prevIndex
      let prev ← rf.entryAt prevIndex
      some (some (.append ⟨rf.currentTerm, rf.me, prevIndex, prev.term, entries, rf.commitIndex⟩))

def lastOfTerm (rf : Raft n C S) (xTerm : ℤ) : ℕ → Option ℕ
  | 0 => some 0
  | i + 1 =>
    -- `for i > rf.lastIncludedIndex && rf.entryAt(i).Term != xTerm { i-- }`
    if rf.lastIncludedIndex < i + 1 then do
      let e ← rf.entryAt (i + 1)
      if (e.term : ℤ) ≠ xTerm then lastOfTerm rf xTerm i else some (i + 1)
    else some (i + 1)

def conflictNext (rf : Raft n C S) (reply : AppendEntriesReply) : Option ℕ :=
  if reply.xTerm = -1 then some reply.xLen
  else do
    let i ← rf.lastOfTerm reply.xTerm rf.lastLogIndex
    let e ← rf.entryAt i
    if (e.term : ℤ) = reply.xTerm then some (i + 1) else some reply.xIndex

def backupNextIndex (rf : Raft n C S) (peer : Fin n) (reply : AppendEntriesReply) :
    Option (Raft n C S) := do
  let next ← rf.conflictNext reply
  let next := if rf.nextIndex peer ≤ next then rf.nextIndex peer - 1 else next
  let minNext := if rf.lastIncludedIndex < 1 then 1 else rf.lastIncludedIndex
  let next := if next < minNext then minNext else next
  some { rf with nextIndex := Function.update rf.nextIndex peer next }

def advanceCommitIndex (rf : Raft n C S) : Option (Raft n C S) :=
  if rf.state ≠ .leader then some rf
  else do
    let tmp := (List.ofFn rf.matchIndex).insertionSort (· ≤ ·)
    let N ← tmp[n / 2]?
    if rf.commitIndex < N ∧ N ≤ rf.lastLogIndex then do
      let e ← rf.entryAt N
      if e.term = rf.currentTerm then some { rf with commitIndex := N } else some rf
    else some rf

/-- `replicateOnce` after `AppendEntries` has answered. -/
def appendReply (rf : Raft n C S) (peer : Fin n) (args : AppendEntriesArgs n C)
    (reply : AppendEntriesReply) : Option (Raft n C S) :=
  if rf.state ≠ .leader ∨ rf.currentTerm ≠ args.term then some rf
  else if rf.currentTerm < reply.term then some (rf.toFollower reply.term)
  else if reply.success then
    let newMatch := args.prevLogIndex + args.entries.length
    let newNext := newMatch + 1
    { rf with
      matchIndex := if rf.matchIndex peer < newMatch then
          Function.update rf.matchIndex peer newMatch else rf.matchIndex
      nextIndex := if rf.nextIndex peer < newNext then
          Function.update rf.nextIndex peer newNext else rf.nextIndex }.advanceCommitIndex
  else if rf.nextIndex peer ≤ args.prevLogIndex + 1 then rf.backupNextIndex peer reply
  else some rf

/-- `replicateOnce` after `InstallSnapshot` has answered. -/
def snapshotReply (rf : Raft n C S) (peer : Fin n) (args : InstallSnapshotArgs n S)
    (reply : InstallSnapshotReply) : Raft n C S :=
  if rf.state ≠ .leader ∨ rf.currentTerm ≠ args.term then rf
  else if rf.currentTerm < reply.term then rf.toFollower reply.term
  else { rf with
    matchIndex := if rf.matchIndex peer < args.lastIncludedIndex then
        Function.update rf.matchIndex peer args.lastIncludedIndex else rf.matchIndex
    nextIndex := if rf.nextIndex peer < args.lastIncludedIndex + 1 then
        Function.update rf.nextIndex peer (args.lastIncludedIndex + 1) else rf.nextIndex }

def applierReady (rf : Raft n C S) : Bool :=
  rf.pendingSnapshot || decide (rf.lastApplied < rf.commitIndex)

/-- The message `applier` sends next, and the state in which it releases the mutex. -/
def applier (rf : Raft n C S) : Option (Raft n C S × ApplyMsg C S) :=
  if rf.pendingSnapshot then
    some ({ rf with lastApplied := rf.pendingSnapshotIndex, pendingSnapshot := false },
      .snapshot rf.pendingSnapshotData rf.pendingSnapshotTerm rf.pendingSnapshotIndex)
  else do
    let idx := rf.lastApplied + 1
    let e ← rf.entryAt idx
    some ({ rf with lastApplied := idx }, .command e.command idx)

def start (rf : Raft n C S) (command : Option C) : Raft n C S × ℤ × ℕ × Bool :=
  if rf.state ≠ .leader then (rf, -1, rf.currentTerm, false)
  else
    let index := rf.lastLogIndex + 1
    let entry : LogEntry C := ⟨rf.currentTerm, command⟩
    let rf := { rf with log := rf.log ++ [entry] }
    let rf := { rf with
      nextIndex := Function.update rf.nextIndex rf.me (rf.lastLogIndex + 1)
      matchIndex := Function.update rf.matchIndex rf.me rf.lastLogIndex }.persist
    (rf, index, rf.currentTerm, true)

def make (me : Fin n) (persister : Persister n C S) : Raft n C S :=
  let rf : Raft n C S :=
    { persister := persister
      me := me
      currentTerm := 0
      votedFor := none
      log := [⟨0, none⟩]
      snapshot := persister.snapshot
      lastIncludedIndex := 0
      lastIncludedTerm := 0
      state := .follower
      commitIndex := 0
      lastApplied := 0
      nextIndex := fun _ => 0
      matchIndex := fun _ => 0
      pendingSnapshot := false
      pendingSnapshotData := none
      pendingSnapshotIndex := 0
      pendingSnapshotTerm := 0 }
  let rf := rf.readPersist persister.raftstate
  { rf with commitIndex := rf.lastIncludedIndex, lastApplied := rf.lastIncludedIndex }

end Raft
end DistributedLabs.RaftModel
