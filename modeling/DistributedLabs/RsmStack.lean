import DistributedLabs.RaftProvenance
import DistributedLabs.RsmModel

set_option autoImplicit false

/-!
# The replicated state machine on top of Raft

`RSM` and the Raft peer below it in one process: `Submit` calls `Start`, the applier's
messages are what `reader` reads, `maybeSnapshot` hands the service's bytes to
`Snapshot`, and a restart finds in one persister what both of them saved. Nothing is
assumed of Raft here.
-/
namespace DistributedLabs.RsmStack
open RsmModel Runs
open RaftCluster (Cluster Proc)
open RaftHistory (StateInv Stream MsgInv)
open RaftProvenance (Starts)

variable {n : ℕ} {R V B St : Type}

def commandToOp (command : Option (Command n R)) : Command n R := command.getD .foreign

/-- The bytes of a server that has taken each command from the channel in turn. The Raft
    model keeps the states of the service beside a run. -/
def service (machine : StateMachine R V B St) :
    RaftCluster.StateMachine (Command n R) (SnapshotData B) where
  initial := ⟨0, machine.snapshot machine.initial⟩
  apply sd command :=
    ⟨sd.lastApplied + 1, match commandToOp command with
      | .foreign => sd.state
      | .op o => machine.snapshot (machine.doOp (machine.restore sd.state) o.req).2⟩

def fromRaft : RaftModel.ApplyMsg (Command n R) (SnapshotData B) → ApplyMsg n R B
  | .command c i => .command (commandToOp c) i
  | .snapshot data _ i => .snapshot data i

def getState {C S : Type} (rf : RaftModel.Raft n C S) : ℕ × Bool :=
  (rf.currentTerm, decide (rf.state = .leader))

structure Stack (n : ℕ) (R V B St : Type) where
  raft : Cluster n (Command n R) (SnapshotData B)
  rsms : Fin n → RSM n R V B St
  /-- The `Submit` calls whose `Start` returned an index, in that order. -/
  calls : List (Submission n R V)

inductive Label (n : ℕ) (R : Type) where
  | raft (l : RaftCluster.Label n (Command n R))
  | submit (p : Fin n) (req : R)
  | startForeign (p : Fin n)
  | receive (k : ℕ)
  | timeout (k : ℕ)
  | send (p : Fin n)
  | read (p : Fin n)
  | finish (p : Fin n)
  | maybeSnapshot (p : Fin n) (persistBytes : ℤ)
  | stop (p : Fin n)
  | restart (p : Fin n)

def internal {C : Type} : RaftCluster.Label n C → Bool
  | .tick _ | .startElection _ | .sendRequestVote _ _ _ | .replicateOnce _ _ | .handle _ | .reply _
  | .lose _ | .applier _ => true
  | .start _ _ | .snapshot _ _ | .send _ | .receive _ | .restart _ => false

def initial (machine : StateMachine R V B St) : Stack n R V B St :=
  { raft := RaftCluster.initial (service machine)
    rsms := fun p => RSM.makeRSM machine p none
    calls := [] }

namespace Stack

def setRSM (w : Stack n R V B St) (p : Fin n) (rsm : RSM n R V B St) : Stack n R V B St :=
  { w with rsms := Function.update w.rsms p rsm }

def submit (w : Stack n R V B St) (p : Fin n) (req : R) : Stack n R V B St :=
  let rsm := w.rsms p
  let x := w.raft.procs p
  let r := x.rf.start (some (.op ⟨rsm.me, rsm.nextId + 1, req⟩))
  let c := rsm.submit x.epoch w.calls.length req r.2.1.toNat r.2.2.1 r.2.2.2
  { raft := w.raft.setRaft p r.1
    rsms := Function.update w.rsms p c.1
    calls := w.calls ++ c.2.toList }

def exec (machine : StateMachine R V B St) (maxraftstate : ℤ) (w : Stack n R V B St) :
    Label n R → Option (Stack n R V B St)
  | .raft l =>
    if internal l then do
      let raft ← w.raft.exec (service machine) l
      some { w with raft := raft }
    else none
  | .submit p req => if (w.rsms p).dead then some w else some (w.submit p req)
  | .startForeign p =>
    some { w with raft := w.raft.setRaft p ((w.raft.procs p).rf.start (some .foreign)).1 }
  | .receive k => do
    let c ← w.calls[k]?
    let res ← c.ch
    if c.epoch = (w.raft.procs c.server).epoch ∧ c.returned = none then
      some { w with calls := w.calls.set k { c with ch := none, returned := some res } }
    else none
  | .timeout k => do
    let c ← w.calls[k]?
    let x := w.raft.procs c.server
    if c.epoch = x.epoch ∧ c.returned = none then
      let r := (w.rsms c.server).timeout k c (getState x.rf).1 (getState x.rf).2
      some { w.setRSM c.server r.1 with calls := w.calls.set k r.2 }
    else none
  | .send p => do
    let msg ← (w.raft.procs p).sending
    let raft ← w.raft.exec (service machine) (.send p)
    let rsm := w.rsms p
    some { w.setRSM p { rsm with applyCh := rsm.applyCh ++ [fromRaft msg] } with raft := raft }
  | .read p => do
    let raft ← w.raft.exec (service machine) (.receive p)
    let r ← (w.rsms p).read machine w.calls
    some { w.setRSM p r.1 with raft := raft, calls := r.2 }
  | .finish p => do
    let r ← (w.rsms p).finish w.calls
    some { w.setRSM p r.1 with calls := r.2 }
  | .maybeSnapshot p persistBytes =>
    let rsm := w.rsms p
    match rsm.reader with
    | .checking =>
      let next := w.setRSM p { rsm with reader := .receiving }
      match rsm.maybeSnapshot machine maxraftstate persistBytes with
      | none => some next
      | some data => do
        let rf ← (w.raft.procs p).rf.takeSnapshot rsm.lastApplied data
        some { next with raft := w.raft.setRaft p rf }
    | _ => none
  | .stop p => do
    let r ← (w.rsms p).stop w.calls
    some { w.setRSM p r.1 with calls := r.2 }
  | .restart p => do
    let raft ← w.raft.exec (service machine) (.restart p)
    some { w.setRSM p (RSM.makeRSM machine p (w.raft.procs p).rf.persister.snapshot) with
      raft := raft }

end Stack

def stack (n : ℕ) (machine : StateMachine R V B St) (maxraftstate : ℤ) :
    Machine (Stack n R V B St) (Label n R) where
  init w := w = initial machine
  step w l u := w.exec machine maxraftstate l = some u

section steps
variable {machine : StateMachine R V B St} {maxraftstate : ℤ} {w u : Stack n R V B St}

inductive Stepped (machine : StateMachine R V B St) (w : Stack n R V B St) :
    Label n R → Stack n R V B St → Prop where
  | raft (l : RaftCluster.Label n (Command n R)) (raft : Cluster n (Command n R) (SnapshotData B))
      (hl : internal l = true) (h : w.raft.exec (service machine) l = some raft) :
      Stepped machine w (.raft l) { w with raft := raft }
  | submitDead (p : Fin n) (req : R) (dead : (w.rsms p).dead = true) :
      Stepped machine w (.submit p req) w
  | refused (p : Fin n) (req : R) (alive : (w.rsms p).dead = false)
      (follows : (w.raft.procs p).rf.state ≠ .leader) :
      Stepped machine w (.submit p req)
        (w.setRSM p { w.rsms p with nextId := (w.rsms p).nextId + 1 })
  | submitted (p : Fin n) (req : R) (alive : (w.rsms p).dead = false)
      (lead : (w.raft.procs p).rf.state = .leader) :
      Stepped machine w (.submit p req)
        { raft := w.raft.setRaft p ((w.raft.procs p).rf.start
            (some (.op ⟨(w.rsms p).me, (w.rsms p).nextId + 1, req⟩))).1
          rsms := Function.update w.rsms p { w.rsms p with
            nextId := (w.rsms p).nextId + 1
            pending := ((w.raft.procs p).rf.lastLogIndex + 1, w.calls.length) ::
              (w.rsms p).pending.filter
                (fun x => decide (x.1 ≠ (w.raft.procs p).rf.lastLogIndex + 1)) }
          calls := w.calls ++ [⟨(w.rsms p).me, (w.raft.procs p).epoch,
            ⟨(w.rsms p).me, (w.rsms p).nextId + 1, req⟩, (w.raft.procs p).rf.lastLogIndex + 1,
            (w.raft.procs p).rf.currentTerm, none, none⟩] }
  | startForeign (p : Fin n) :
      Stepped machine w (.startForeign p)
        { w with raft := w.raft.setRaft p ((w.raft.procs p).rf.start (some .foreign)).1 }
  | receive (k : ℕ) (c : Submission n R V) (res : OpResult V) (hk : w.calls[k]? = some c)
      (hch : c.ch = some res) (hepoch : c.epoch = (w.raft.procs c.server).epoch)
      (hret : c.returned = none) :
      Stepped machine w (.receive k)
        { w with calls := w.calls.set k { c with ch := none, returned := some res } }
  | timeout (k : ℕ) (c : Submission n R V) (hk : w.calls[k]? = some c)
      (hepoch : c.epoch = (w.raft.procs c.server).epoch) (hret : c.returned = none)
      (rsm : RSM n R V B St) (c' : Submission n R V)
      (h : (w.rsms c.server).timeout k c (getState (w.raft.procs c.server).rf).1
        (getState (w.raft.procs c.server).rf).2 = (rsm, c')) :
      Stepped machine w (.timeout k) { w.setRSM c.server rsm with calls := w.calls.set k c' }
  | send (p : Fin n) (msg : RaftModel.ApplyMsg (Command n R) (SnapshotData B))
      (raft : Cluster n (Command n R) (SnapshotData B))
      (hmsg : (w.raft.procs p).sending = some msg)
      (h : w.raft.exec (service machine) (.send p) = some raft) :
      Stepped machine w (.send p) { w.setRSM p { w.rsms p with
        applyCh := (w.rsms p).applyCh ++ [fromRaft msg] } with raft := raft }
  | read (p : Fin n) (raft : Cluster n (Command n R) (SnapshotData B)) (rsm : RSM n R V B St)
      (calls : List (Submission n R V))
      (hraft : w.raft.exec (service machine) (.receive p) = some raft)
      (h : (w.rsms p).read machine w.calls = some (rsm, calls)) :
      Stepped machine w (.read p) { w.setRSM p rsm with raft := raft, calls := calls }
  | finish (p : Fin n) (rsm : RSM n R V B St) (calls : List (Submission n R V))
      (h : (w.rsms p).finish w.calls = some (rsm, calls)) :
      Stepped machine w (.finish p) { w.setRSM p rsm with calls := calls }
  | skipSnapshot (p : Fin n) (persistBytes : ℤ) (hr : (w.rsms p).reader = .checking) :
      Stepped machine w (.maybeSnapshot p persistBytes)
        (w.setRSM p { w.rsms p with reader := .receiving })
  | snapshot (p : Fin n) (persistBytes : ℤ)
      (rf : RaftModel.Raft n (Command n R) (SnapshotData B)) (hr : (w.rsms p).reader = .checking)
      (h : (w.raft.procs p).rf.takeSnapshot (w.rsms p).lastApplied
        ((w.rsms p).encodeSnapshot machine (w.rsms p).lastApplied) = some rf) :
      Stepped machine w (.maybeSnapshot p persistBytes)
        { w.setRSM p { w.rsms p with reader := .receiving } with raft := w.raft.setRaft p rf }
  | stop (p : Fin n) (rsm : RSM n R V B St) (calls : List (Submission n R V))
      (h : (w.rsms p).stop w.calls = some (rsm, calls)) :
      Stepped machine w (.stop p) { w.setRSM p rsm with calls := calls }
  | restart (p : Fin n) (raft : Cluster n (Command n R) (SnapshotData B))
      (h : w.raft.exec (service machine) (.restart p) = some raft) :
      Stepped machine w (.restart p)
        { w.setRSM p (RSM.makeRSM machine p (w.raft.procs p).rf.persister.snapshot) with
          raft := raft }

theorem submit_refused {p : Fin n} {req : R} (halive : (w.rsms p).dead = false)
    (hs : (w.raft.procs p).rf.state ≠ .leader) :
    w.submit p req = w.setRSM p { w.rsms p with nextId := (w.rsms p).nextId + 1 } := by
  simp [Stack.submit, RaftModel.Raft.start, hs, RSM.submit, halive, Stack.setRSM, Cluster.setRaft,
    Cluster.setProc]

theorem submit_started {p : Fin n} {req : R} (halive : (w.rsms p).dead = false)
    (hs : (w.raft.procs p).rf.state = .leader) :
    Stepped machine w (.submit p req) (w.submit p req) := by
  have h : Stepped machine w (.submit p req) _ := .submitted p req halive hs
  have hresult := (RaftProvenance.start_result_iff (w.raft.procs p).rf
    (some (.op ⟨(w.rsms p).me, (w.rsms p).nextId + 1, req⟩)) _ _).mpr ⟨hs, rfl, rfl⟩
  simp only [Stack.submit, hresult, Int.toNat_natCast, RSM.submit, halive, Bool.false_eq_true,
    if_false, not_true, Option.toList_some]
  simpa only [halive] using h

theorem exec_spec {l : Label n R} (h : w.exec machine maxraftstate l = some u) :
    Stepped machine w l u := by
  cases l with
  | raft l =>
    dsimp only [Stack.exec] at h
    split_ifs at h with hl
    obtain ⟨raft, hraft, h⟩ := Option.bind_eq_some_iff.mp h
    cases h
    exact .raft l raft hl hraft
  | submit p req =>
    dsimp only [Stack.exec] at h
    split_ifs at h with hdead
    · cases h
      exact .submitDead p req hdead
    · cases h
      have halive : (w.rsms p).dead = false := by simpa using hdead
      by_cases hs : (w.raft.procs p).rf.state = .leader
      · exact submit_started halive hs
      · rw [submit_refused halive hs]
        exact .refused p req halive hs
  | startForeign p =>
    cases h
    exact .startForeign p
  | receive k =>
    obtain ⟨c, hc, h⟩ := Option.bind_eq_some_iff.mp h
    obtain ⟨res, hres, h⟩ := Option.bind_eq_some_iff.mp h
    split_ifs at h with hok
    cases h
    exact .receive k c res hc hres hok.1 hok.2
  | timeout k =>
    obtain ⟨c, hc, h⟩ := Option.bind_eq_some_iff.mp h
    dsimp only at h
    split_ifs at h with hok
    cases h
    exact .timeout k c hc hok.1 hok.2 _ _ rfl
  | send p =>
    obtain ⟨msg, hmsg, h⟩ := Option.bind_eq_some_iff.mp h
    obtain ⟨raft, hraft, h⟩ := Option.bind_eq_some_iff.mp h
    cases h
    exact .send p msg raft hmsg hraft
  | read p =>
    obtain ⟨raft, hraft, h⟩ := Option.bind_eq_some_iff.mp h
    obtain ⟨⟨rsm, calls⟩, hr, h⟩ := Option.bind_eq_some_iff.mp h
    cases h
    exact .read p raft rsm calls hraft hr
  | finish p =>
    obtain ⟨⟨rsm, calls⟩, hr, h⟩ := Option.bind_eq_some_iff.mp h
    cases h
    exact .finish p rsm calls hr
  | maybeSnapshot p persistBytes =>
    dsimp only [Stack.exec, RSM.maybeSnapshot] at h
    split at h
    · rename_i hr
      split_ifs at h
      · cases h
        exact .skipSnapshot p persistBytes hr
      · cases h
        exact .skipSnapshot p persistBytes hr
      · obtain ⟨rf, hrf, h⟩ := Option.bind_eq_some_iff.mp h
        cases h
        exact .snapshot p persistBytes rf hr hrf
    · cases h
  | stop p =>
    obtain ⟨⟨rsm, calls⟩, hr, h⟩ := Option.bind_eq_some_iff.mp h
    cases h
    exact .stop p rsm calls hr
  | restart p =>
    cases h
    exact .restart p _ rfl

end steps

section states
variable {machine : StateMachine R V B St}

def doCommand (machine : StateMachine R V B St) (st : St) : Command n R → St
  | .foreign => st
  | .op o => (machine.doOp st o.req).2

/-- The states that requests can bring a new service to. -/
inductive Occurs (machine : StateMachine R V B St) : St → Prop where
  | initial : Occurs machine machine.initial
  | doOp {st : St} (req : R) (h : Occurs machine st) : Occurs machine (machine.doOp st req).2

/-- The service gets such a state back from its own snapshot. -/
def Restores (machine : StateMachine R V B St) : Prop :=
  ∀ st, Occurs machine st → machine.restore (machine.snapshot st) = st

def fold (machine : StateMachine R V B St) (cs : List (Command n R)) : St :=
  cs.foldl (doCommand machine) machine.initial

theorem fold_snoc (cs : List (Command n R)) (c : Command n R) :
    fold machine (cs ++ [c]) = doCommand machine (fold machine cs) c := by
  simp [fold]

theorem occurs_fold (cs : List (Command n R)) : Occurs machine (fold machine cs) := by
  induction cs using List.reverseRecOn with
  | nil => exact .initial
  | append_singleton cs c ih =>
    rw [fold_snoc]
    cases c with
    | foreign => exact ih
    | op o => exact .doOp o.req ih

theorem fold_take_succ {cs : List (Command n R)} {i : ℕ} {c : Command n R}
    (h : cs[i]? = some c) :
    fold machine (cs.take (i + 1)) = doCommand machine (fold machine (cs.take i)) c := by
  rw [List.take_add_one, h, Option.toList_some, fold_snoc]

def commands (l : List (RaftModel.LogEntry (Command n R))) : List (Command n R) :=
  l.map fun e => commandToOp e.command

/-- The bytes that belong to a log are those of the fold over its commands. -/
theorem stateAfter_service (round : Restores machine)
    (l : List (RaftModel.LogEntry (Command n R))) :
    RaftHistory.stateAfter (service machine) l =
      ⟨l.length, machine.snapshot (fold machine (commands l))⟩ := by
  induction l using List.reverseRecOn with
  | nil => rfl
  | append_singleton l e ih =>
    have hlast : RaftHistory.stateAfter (service machine) (l ++ [e]) =
        (service machine).apply (RaftHistory.stateAfter (service machine) l) e.command := by
      simp [RaftHistory.stateAfter]
    rw [hlast, ih]
    simp only [commands, List.map_append, List.map_singleton, fold_snoc, service]
    cases commandToOp e.command with
    | foreign => simp [doCommand]
    | op o => simp [doCommand, round _ (occurs_fold _)]

end states

section sync
variable {machine : StateMachine R V B St} {p : Fin n}
  {x : Proc n (Command n R) (SnapshotData B)} {rsm : RSM n R V B St}

/-- The index up to which the service's state reflects the log. -/
def position (rsm : RSM n R V B St) : ℕ :=
  match rsm.reader with
  | .applied index _ _ => index
  | _ => rsm.lastApplied

/-- The two halves of a process agree: the channel between them, and the service's state,
    which belongs to `position` and has not changed since. -/
structure Sync (machine : StateMachine R V B St) (p : Fin n)
    (x : Proc n (Command n R) (SnapshotData B)) (rsm : RSM n R V B St) : Prop where
  me : rsm.me = p
  channel : rsm.applyCh = x.applyCh.map fromRaft
  newest : ∃ i rest, x.states = (i, rsm.encodeSnapshot machine i) :: rest ∧ position rsm ≤ i
  stands : (position rsm, rsm.encodeSnapshot machine (position rsm)) ∈ x.states
  behind : rsm.lastApplied ≤ position rsm
  occurs : Occurs machine rsm.sm

theorem Sync.keep (h : Sync machine p x rsm) {y : Proc n (Command n R) (SnapshotData B)}
    (hch : y.applyCh = x.applyCh) (hst : y.states = x.states) : Sync machine p y rsm := by
  obtain ⟨hme, hchannel, hnewest, hstands, hbehind, hoccurs⟩ := h
  exact ⟨hme, by rw [hch, hchannel], by rw [hst]; exact hnewest, by rw [hst]; exact hstands, hbehind,
    hoccurs⟩

theorem Sync.quiet (h : Sync machine p x rsm) {rsm' : RSM n R V B St} (hme : rsm'.me = rsm.me)
    (hch : rsm'.applyCh = rsm.applyCh) (hsm : rsm'.sm = rsm.sm)
    (hpos : position rsm' = position rsm) (hle : rsm'.lastApplied ≤ position rsm) :
    Sync machine p x rsm' := by
  have henc : ∀ i, rsm'.encodeSnapshot machine i = rsm.encodeSnapshot machine i := by
    simp [RSM.encodeSnapshot, hsm]
  refine ⟨hme.trans h.me, hch.trans h.channel, ?_, ?_, by rw [hpos]; exact hle,
    by rw [hsm]; exact h.occurs⟩
  · simpa only [henc, hpos] using h.newest
  · simpa only [henc, hpos] using h.stands

theorem Sync.send (h : Sync machine p x rsm) {y : Proc n (Command n R) (SnapshotData B)}
    {msg : RaftModel.ApplyMsg (Command n R) (SnapshotData B)}
    (hch : y.applyCh = x.applyCh ++ [msg]) (hst : y.states = x.states) :
    Sync machine p y { rsm with applyCh := rsm.applyCh ++ [fromRaft msg] } where
  me := h.me
  channel := by simp [h.channel, hch]
  newest := by rw [hst]; exact h.newest
  stands := by rw [hst]; exact h.stands
  behind := h.behind
  occurs := h.occurs

/-- What `reader` can find when it takes a message: a command that is no `Op`, an `Op`, which is
    always behind what has been applied, or a snapshot, which always is too. The record of
    the Raft model gets the state for the same index. -/
inductive Reads (machine : StateMachine R V B St) (x : Proc n (Command n R) (SnapshotData B))
    (rsm : RSM n R V B St) (calls : List (Submission n R V)) (i : ℕ) :
    Proc n (Command n R) (SnapshotData B) → RSM n R V B St → List (Submission n R V) → Prop where
  | foreign (c : Option (Command n R)) (ms : List (RaftModel.ApplyMsg (Command n R) (SnapshotData B)))
      (hch : x.applyCh = .command c (i + 1) :: ms) (hc : commandToOp c = .foreign) :
      Reads machine x rsm calls i
        { x with applyCh := ms, states := (i + 1, rsm.encodeSnapshot machine (i + 1)) :: x.states }
        { rsm with applyCh := ms.map fromRaft } calls
  | op (c : Option (Command n R)) (ms : List (RaftModel.ApplyMsg (Command n R) (SnapshotData B)))
      (o : Op n R) (hch : x.applyCh = .command c (i + 1) :: ms) (hc : commandToOp c = .op o) :
      Reads machine x rsm calls i
        { x with
          applyCh := ms
          states := (i + 1, ⟨i + 1, machine.snapshot (machine.doOp rsm.sm o.req).2⟩) :: x.states }
        { rsm with
          applyCh := ms.map fromRaft
          sm := (machine.doOp rsm.sm o.req).2
          reader := .applied (i + 1) o (machine.doOp rsm.sm o.req).1 } calls
  | snapshot (data : Option (SnapshotData B)) (t k : ℕ) (st : St)
      (ms : List (RaftModel.ApplyMsg (Command n R) (SnapshotData B)))
      (hch : x.applyCh = .snapshot data t k :: ms) (hk : i < k) (hst : Occurs machine st) :
      Reads machine x rsm calls i
        { x with applyCh := ms, states := (k, ⟨k, machine.snapshot st⟩) :: x.states }
        { rsm with
          applyCh := ms.map fromRaft
          sm := st
          lastApplied := k
          pending := rsm.pending.filter (fun y => decide (k < y.1)) }
        (wake calls (rsm.pending.filter (fun y => decide (y.1 ≤ k))))

theorem Sync.reads (round : Restores machine)
    {s u : Cluster n (Command n R) (SnapshotData B)} {g : RaftHistory.History n (Command n R)}
    (h : Sync machine p (s.procs p) rsm)
    (hproc : RaftHistory.ProcInv (service machine) g s.delivered p (s.procs p))
    (hraft : s.receive (service machine) p = some u) {rsm' : RSM n R V B St}
    {calls calls' : List (Submission n R V)} (hread : rsm.read machine calls = some (rsm', calls')) :
    rsm.reader = .receiving ∧ ∃ i rest,
      (s.procs p).states = (i, rsm.encodeSnapshot machine i) :: rest ∧ rsm.lastApplied ≤ i ∧
      Reads machine (s.procs p) rsm calls i (u.procs p) rsm' calls' := by
  obtain ⟨i, rest, hstates, hle⟩ := h.newest
  obtain ⟨i', st, rest', hstates', hstream⟩ := hproc.stream
  rw [hstates] at hstates'
  cases hstates'
  have hr : rsm.reader = .receiving := by
    cases hr : rsm.reader <;> simp [RSM.read, hr] at hread
    rfl
  have hbehind : rsm.lastApplied ≤ i := by simpa [position, hr] using hle
  refine ⟨hr, i, rest, hstates, hbehind, ?_⟩
  have hchannel := h.channel
  unfold Cluster.receive at hraft
  dsimp only at hraft
  rw [hstates] at hraft
  cases hch : (s.procs p).applyCh with
  | nil =>
    rw [hch] at hraft
    cases hraft
  | cons m ms =>
    rw [hch] at hraft hstream hchannel
    cases m with
    | command c k =>
      obtain ⟨rfl, _⟩ := hstream
      cases hraft
      rw [← hstates]
      simp only [Cluster.setProc, Function.update_self]
      simp only [List.map_cons, fromRaft] at hchannel
      simp only [RSM.read, hr, hchannel, Option.some.injEq, Prod.mk.injEq] at hread
      obtain ⟨hrsm, rfl⟩ := hread
      cases hc : commandToOp c with
      | foreign =>
        simp only [hc, RSM.readCommand] at hrsm
        have hrsm' : rsm' = { rsm with applyCh := ms.map fromRaft } := by rw [← hrsm, hr]
        have hstate : (service machine).apply (rsm.encodeSnapshot machine i) c =
            rsm.encodeSnapshot machine (i + 1) := by
          simp [service, hc, RSM.encodeSnapshot]
        rw [hrsm', hstate]
        exact .foreign c ms hch hc
      | op o =>
        have hnew : ¬ i + 1 ≤ rsm.lastApplied := by omega
        simp only [hc, RSM.readCommand, if_neg hnew] at hrsm
        have hstate : (service machine).apply (rsm.encodeSnapshot machine i) c =
            ⟨i + 1, machine.snapshot (machine.doOp rsm.sm o.req).2⟩ := by
          simp [service, hc, RSM.encodeSnapshot, round _ h.occurs]
        rw [← hrsm, hstate]
        exact .op c ms o hch hc
    | snapshot data t k =>
      -- Raft vouches for the bytes: they belong to a decided log of length `k`
      obtain ⟨hik, _⟩ := hstream
      obtain ⟨_, _, l, _, hlen, hdata⟩ := hproc.msgs (.snapshot data t k) (by simp [hch])
      cases hraft
      rw [← hstates]
      simp only [Cluster.setProc, Function.update_self]
      simp only [List.map_cons, fromRaft] at hchannel
      have hnew : rsm.lastApplied < k := by omega
      rw [stateAfter_service round, hlen] at hdata
      simp only [RSM.read, hr, hchannel, RSM.readSnapshot, if_pos hnew, Option.some.injEq,
        Prod.mk.injEq, hdata, RSM.restoreSnapshot, round _ (occurs_fold _)] at hread
      obtain ⟨hrsm, rfl⟩ := hread
      have hrsm' : rsm' = { rsm with
          applyCh := ms.map fromRaft
          sm := fold machine (commands l)
          lastApplied := k
          pending := rsm.pending.filter (fun y => decide (k < y.1)) } := by rw [← hrsm, hr]
      have hstate : data.getD (service machine : RaftCluster.StateMachine (Command n R) _).initial =
          ⟨k, machine.snapshot (fold machine (commands l))⟩ := by
        rw [hdata]
        rfl
      rw [hrsm', hstate]
      exact .snapshot data t k _ ms hch hik (occurs_fold _)

theorem Sync.read (h : Sync machine p x rsm) (hr : rsm.reader = .receiving) {i : ℕ}
    (hle : rsm.lastApplied ≤ i) {calls calls' : List (Submission n R V)}
    {y : Proc n (Command n R) (SnapshotData B)} {rsm' : RSM n R V B St}
    (hread : Reads machine x rsm calls i y rsm' calls') : Sync machine p y rsm' := by
  cases hread with
  | foreign c ms hch hc =>
    refine ⟨h.me, rfl, ⟨i + 1, x.states, rfl, ?_⟩, List.mem_cons_of_mem _ h.stands, h.behind,
      h.occurs⟩
    simp only [position, hr]
    omega
  | op c ms o hch hc =>
    refine ⟨h.me, rfl, ⟨i + 1, x.states, rfl, Nat.le_refl _⟩, List.mem_cons_self, ?_,
      .doOp o.req h.occurs⟩
    simp only [position]
    omega
  | snapshot data t k st ms hch hk hst =>
    refine ⟨h.me, rfl, ⟨k, x.states, rfl, ?_⟩, ?_, ?_, hst⟩ <;> simp [position, hr, RSM.encodeSnapshot]

/-- A restarted server and its Raft peer start from the same snapshot. -/
theorem Sync.boot (round : Restores machine)
    {g : RaftHistory.History n (Command n R)}
    {d : List (RaftCluster.Delivery n (Command n R) (SnapshotData B))}
    {persister : RaftModel.Persister n (Command n R) (SnapshotData B)}
    (hi : RaftHistory.RaftInv (service machine) g d p (RaftModel.Raft.make p persister)) (e : ℕ) :
    Sync machine p (RaftCluster.boot (service machine) p e persister)
      (RSM.makeRSM machine p persister.snapshot) := by
  obtain ⟨base, hbase⟩ : ∃ base, (RaftModel.Raft.make p persister).lastIncludedIndex = base :=
    ⟨_, rfl⟩
  have hlen : ((g.log p).take base).length = base := by
    rw [List.length_take]
    exact Nat.min_eq_left (hbase ▸ hi.shape.base)
  have hsnap : persister.snapshot = RaftHistory.image (service machine) ((g.log p).take base) := by
    rw [← hbase, ← hi.snapshot]
    obtain ⟨raftstate, snapshot⟩ := persister
    cases raftstate <;> rfl
  have hfind : (RaftCluster.boot (service machine) p e persister).states =
      [(base, persister.snapshot.getD ⟨0, machine.snapshot machine.initial⟩)] := by
    rw [hsnap, ← hbase, ← hi.snapshot]
    rfl
  have hstate : (RSM.makeRSM machine p persister.snapshot : RSM n R V B St).lastApplied = base ∧
      persister.snapshot.getD ⟨0, machine.snapshot machine.initial⟩ =
        (RSM.makeRSM machine p persister.snapshot : RSM n R V B St).encodeSnapshot machine base ∧
      Occurs machine (RSM.makeRSM machine p persister.snapshot : RSM n R V B St).sm := by
    cases base with
    | zero => simp [hsnap, RaftHistory.image, RSM.makeRSM, RSM.restoreSnapshot,
        RSM.encodeSnapshot, Occurs.initial]
    | succ base =>
      rw [RaftHistory.image_of_pos _ (by omega), stateAfter_service round, hlen] at hsnap
      simp [hsnap, RSM.makeRSM, RSM.restoreSnapshot, RSM.encodeSnapshot, round _ (occurs_fold _),
        occurs_fold]
  have hframe : (RSM.makeRSM machine p persister.snapshot : RSM n R V B St).me = p ∧
      (RSM.makeRSM machine p persister.snapshot : RSM n R V B St).applyCh = [] ∧
      (RSM.makeRSM machine p persister.snapshot : RSM n R V B St).reader = .receiving := by
    cases persister.snapshot <;> exact ⟨rfl, rfl, rfl⟩
  have hpos : position (RSM.makeRSM machine p persister.snapshot : RSM n R V B St) = base := by
    simp [position, hframe.2.2, hstate.1]
  refine ⟨hframe.1, by rw [hframe.2.1]; rfl, ⟨base, [], by rw [hfind, hstate.2.1], hpos.le⟩, ?_, ?_,
    hstate.2.2⟩
  · rw [hpos, hfind, hstate.2.1]
    exact List.mem_singleton_self _
  · rw [hpos, hstate.1]

end sync

section calls

structure Ticket (n : ℕ) (R : Type) where
  server : Fin n
  epoch : ℕ
  op : Op n R
  index : ℕ
  term : ℕ

def ticket (c : Submission n R V) : Ticket n R := ⟨c.server, c.epoch, c.op, c.index, c.term⟩

structure Fed (c c' : Submission n R V) : Prop where
  ticket : ticket c' = ticket c
  returned : c'.returned = c.returned
  kept : ∀ res, c.ch = some res → c'.ch = some res

structure FedAll (l l' : List (Submission n R V)) : Prop where
  length : l'.length = l.length
  each : ∀ (k : ℕ) (c : Submission n R V), l[k]? = some c → ∃ c', l'[k]? = some c' ∧ Fed c c'

theorem Fed.refl (c : Submission n R V) : Fed c c := ⟨rfl, rfl, fun _ h => h⟩

theorem FedAll.refl (l : List (Submission n R V)) : FedAll l l :=
  ⟨rfl, fun _ c hc => ⟨c, hc, .refl c⟩⟩

theorem FedAll.trans {l l' l'' : List (Submission n R V)} (h : FedAll l l') (h' : FedAll l' l'') :
    FedAll l l'' := by
  refine ⟨h'.length.trans h.length, ?_⟩
  intro k c hc
  obtain ⟨c', hc', hf⟩ := h.each k c hc
  obtain ⟨c'', hc'', hf'⟩ := h'.each k c' hc'
  exact ⟨c'', hc'', hf'.ticket.trans hf.ticket, hf'.returned.trans hf.returned,
    fun res hres => hf'.kept res (hf.kept res hres)⟩

theorem fed_offer (c : Submission n R V) (res : OpResult V) : Fed c (c.offer res) := by
  cases hch : c.ch with
  | none => exact ⟨by simp [Submission.offer, hch, RsmStack.ticket],
      by simp [Submission.offer, hch], by simp [hch]⟩
  | some r => simpa [Submission.offer, hch] using Fed.refl c

theorem fed_post (calls : List (Submission n R V)) (k : ℕ) (res : OpResult V) :
    FedAll calls (post calls k res) := by
  refine ⟨List.length_modify _ _ _, ?_⟩
  intro j c hc
  simp only [post, List.getElem?_modify, hc, Option.map_eq_map, Option.map_some]
  split_ifs
  · exact ⟨_, rfl, fed_offer c res⟩
  · exact ⟨_, rfl, .refl c⟩

theorem fed_wake (ws : List (ℕ × ℕ)) (calls : List (Submission n R V)) :
    FedAll calls (wake calls ws) := by
  induction ws generalizing calls with
  | nil => exact .refl calls
  | cons w ws ih => exact (fed_post _ _ _).trans (ih _)

theorem FedAll.tickets {l l' : List (Submission n R V)} (h : FedAll l l') :
    l'.map RsmStack.ticket = l.map RsmStack.ticket := by
  apply List.ext_getElem?
  intro k
  simp only [List.getElem?_map]
  cases hk : l[k]? with
  | none =>
    rw [List.getElem?_eq_none_iff, ← h.length, ← List.getElem?_eq_none_iff] at hk
    rw [hk]
  | some c =>
    obtain ⟨c', hc', hf⟩ := h.each k c hk
    rw [hc', Option.map_some, Option.map_some, hf.ticket]

theorem tickets_set {calls : List (Submission n R V)} {k : ℕ} {c d : Submission n R V}
    (hk : calls[k]? = some c) (h : ticket d = ticket c) :
    (calls.set k d).map ticket = calls.map ticket := by
  rw [List.map_set, h]
  apply List.ext_getElem?
  intro j
  by_cases hj : k = j
  · subst hj
    have hlt := (List.getElem?_eq_some_iff.mp hk).choose
    rw [List.getElem?_set_self (by simpa using hlt), List.getElem?_map, hk, Option.map_some]
  · rw [List.getElem?_set_ne hj]

variable {machine : StateMachine R V B St} {rsm rsm' : RSM n R V B St}
  {calls calls' : List (Submission n R V)}

theorem fed_read (h : rsm.read machine calls = some (rsm', calls')) : FedAll calls calls' := by
  unfold RSM.read at h
  split at h
  · cases h
    exact fed_wake _ _
  · cases h
    exact .refl _
  · cases h

theorem fed_finish (h : rsm.finish calls = some (rsm', calls')) : FedAll calls calls' := by
  unfold RSM.finish at h
  split at h
  · dsimp only at h
    split at h
    · cases h
      exact .refl _
    · obtain ⟨c, _, h⟩ := Option.bind_eq_some_iff.mp h
      cases h
      exact fed_post _ _ _
  · cases h

theorem fed_stop (h : rsm.stop calls = some (rsm', calls')) : FedAll calls calls' := by
  unfold RSM.stop at h
  split at h
  · cases h
    exact fed_wake _ _
  · cases h

theorem ticket_timeout {k curTerm : ℕ} {c c' : Submission n R V} {isLeader : Bool}
    (h : rsm.timeout k c curTerm isLeader = (rsm', c')) : ticket c' = ticket c := by
  unfold RSM.timeout at h
  split_ifs at h <;> cases h <;> rfl

def Books (x : Transition (Cluster n (Command n R) (SnapshotData B))
    (RaftCluster.Label n (Command n R))) (t : Ticket n R) : Prop :=
  Starts x t.server (some (.op t.op)) t.index t.term

/-- `Submit` calls and successful calls of `Start` with an `Op` are the same thing, and they
    were made in the order of the tickets. -/
structure Booked
    (past : List (Transition (Cluster n (Command n R) (SnapshotData B))
      (RaftCluster.Label n (Command n R)))) (tickets : List (Ticket n R)) : Prop where
  each : ∀ t ∈ tickets, ∃ x ∈ past, Books x t
  all : ∀ x ∈ past, ∀ p o i t, Starts x p (some (.op o)) i t →
    ∃ c ∈ tickets, c.server = p ∧ c.op = o ∧ c.index = i ∧ c.term = t
  order : tickets.Pairwise fun t t' => ∃ x y, [y, x].Sublist past ∧ Books x t ∧ Books y t'

variable {past : List (Transition (Cluster n (Command n R) (SnapshotData B))
  (RaftCluster.Label n (Command n R)))} {tickets : List (Ticket n R)}

theorem Booked.order_cons (h : Booked past tickets)
    (x : Transition (Cluster n (Command n R) (SnapshotData B)) (RaftCluster.Label n (Command n R))) :
    tickets.Pairwise fun t t' => ∃ y z, [z, y].Sublist (x :: past) ∧ Books y t ∧ Books z t' :=
  h.order.imp fun ⟨y, z, hs, hb⟩ => ⟨y, z, hs.cons x, hb⟩

theorem Booked.keep (h : Booked past tickets)
    {x : Transition (Cluster n (Command n R) (SnapshotData B)) (RaftCluster.Label n (Command n R))}
    (hx : ∀ p o, x.label ≠ .start p (some (.op o))) : Booked (x :: past) tickets where
  each t ht := by
    obtain ⟨y, hy, hs⟩ := h.each t ht
    exact ⟨y, List.mem_cons_of_mem _ hy, hs⟩
  all y hy p o i t hs := by
    rcases List.mem_cons.mp hy with rfl | hy
    · exact absurd hs.label (hx p o)
    · exact h.all y hy p o i t hs
  order := h.order_cons x

theorem Booked.start (h : Booked past tickets)
    {x : Transition (Cluster n (Command n R) (SnapshotData B)) (RaftCluster.Label n (Command n R))}
    {t : Ticket n R} (hx : Books x t) : Booked (x :: past) (tickets ++ [t]) where
  each t' ht' := by
    rcases List.mem_append.mp ht' with ht' | ht'
    · obtain ⟨y, hy, hs⟩ := h.each t' ht'
      exact ⟨y, List.mem_cons_of_mem _ hy, hs⟩
    · rw [List.mem_singleton.mp ht']
      exact ⟨x, List.mem_cons_self, hx⟩
  all y hy p o i j hs := by
    rcases List.mem_cons.mp hy with rfl | hy
    · have hlabel := hs.label.symm.trans hx.label
      cases hlabel
      have hresult := hs.result.symm.trans hx.result
      simp only [Prod.mk.injEq, and_true] at hresult
      exact ⟨t, List.mem_append_right _ (List.mem_singleton_self t), rfl, rfl, by omega,
        hresult.2.symm⟩
    · obtain ⟨c, hc, rest⟩ := h.all y hy p o i j hs
      exact ⟨c, List.mem_append_left _ hc, rest⟩
  order := by
    rw [List.pairwise_append]
    refine ⟨h.order_cons x, List.pairwise_singleton _ _, ?_⟩
    intro t' ht' t'' ht''
    rw [List.mem_singleton.mp ht'']
    obtain ⟨y, hy, hs⟩ := h.each t' ht'
    exact ⟨y, x, List.cons_sublist_cons.mpr (List.singleton_sublist.mpr hy), hs, hx⟩

end calls

section frames
variable {C S : Type} {sm : RaftCluster.StateMachine C S} {s u : Cluster n C S}

/-- Raft has left alone what it shares with the service. -/
structure Frame (s u : Cluster n C S) : Prop where
  applyCh : ∀ q, (u.procs q).applyCh = (s.procs q).applyCh
  states : ∀ q, (u.procs q).states = (s.procs q).states
  epoch : ∀ q, (u.procs q).epoch = (s.procs q).epoch
  delivered : u.delivered = s.delivered

theorem Frame.update {p : Fin n} {y : Proc n C S} (hu : u.procs = Function.update s.procs p y)
    (hd : u.delivered = s.delivered) (hch : y.applyCh = (s.procs p).applyCh)
    (hst : y.states = (s.procs p).states) (he : y.epoch = (s.procs p).epoch) : Frame s u := by
  refine ⟨?_, ?_, ?_, hd⟩ <;> intro q <;> rw [hu] <;> by_cases hq : q = p
  all_goals first | (subst hq; rw [Function.update_self]; assumption) | rw [Function.update_of_ne hq]

theorem Frame.setRaft (s : Cluster n C S) (p : Fin n) (rf : RaftModel.Raft n C S) :
    Frame s (s.setRaft p rf) :=
  .update rfl rfl rfl rfl rfl

theorem replied_frame {x y : Proc n C S} {peer : Fin n} {call : RaftCluster.Call n C S}
    (h : RaftCluster.Replied x peer y call) :
    y.applyCh = x.applyCh ∧ y.states = x.states ∧ y.epoch = x.epoch := by
  cases h with
  | requestVote args reply rf votes _ hy =>
    subst hy
    exact ⟨rfl, rfl, rfl⟩
  | appendEntries args reply rf _ hy =>
    subst hy
    exact ⟨rfl, rfl, rfl⟩
  | installSnapshot args reply hy =>
    subst hy
    exact ⟨rfl, rfl, rfl⟩

theorem internal_frame {l : RaftCluster.Label n C} (hl : internal l = true)
    (h : s.exec sm l = some u) : Frame s u := by
  cases RaftCluster.exec_spec h with
  | tick | startElection | skipVote | sendVote | handle | applier => exact .update rfl rfl rfl rfl rfl
  | skipReplicate | sendAppend | sendSnapshot | lose =>
    exact ⟨fun _ => rfl, fun _ => rfl, fun _ => rfl, rfl⟩
  | reply k r y hk hy =>
    obtain ⟨hch, hst, he⟩ := replied_frame hy
    exact .update rfl rfl hch hst he
  | start | snapshot | send | receive | restart => cases hl

theorem receive_keeps {p : Fin n} (h : s.exec sm (.receive p) = some u) :
    (∀ q, (u.procs q).epoch = (s.procs q).epoch) ∧ (∀ q, (u.procs q).rf = (s.procs q).rf) ∧
      u.delivered = s.delivered := by
  cases RaftCluster.exec_spec h
  refine ⟨?_, ?_, rfl⟩ <;> intro q <;> by_cases hq : q = p
  all_goals first | (subst hq; simp [Cluster.setProc]) | simp [Cluster.setProc, hq]

end frames

section runs
variable {machine : StateMachine R V B St} {maxraftstate : ℤ} {w u : Stack n R V B St} {p : Fin n}
  {x : Proc n (Command n R) (SnapshotData B)} {rsm rsm' : RSM n R V B St}
  {calls calls' : List (Submission n R V)}
  {past : List (Transition (Cluster n (Command n R) (SnapshotData B))
    (RaftCluster.Label n (Command n R)))}
  {tr : List (Transition (Stack n R V B St) (Label n R))}

theorem Sync.timeout (h : Sync machine p x rsm) {k curTerm : ℕ} {c c' : Submission n R V}
    {isLeader : Bool} (ht : rsm.timeout k c curTerm isLeader = (rsm', c')) :
    Sync machine p x rsm' := by
  unfold RSM.timeout at ht
  split_ifs at ht <;> cases ht
  · exact h
  · exact h.quiet rfl rfl rfl rfl h.behind
  · exact h
  · exact h

theorem Sync.finish (h : Sync machine p x rsm) (hf : rsm.finish calls = some (rsm', calls')) :
    Sync machine p x rsm' := by
  unfold RSM.finish at hf
  split at hf
  · rename_i index o result hr
    have hpos : position rsm = index := by simp [position, hr]
    dsimp only at hf
    split at hf
    · cases hf
      exact h.quiet rfl rfl rfl hpos.symm hpos.ge
    · obtain ⟨c, _, hf⟩ := Option.bind_eq_some_iff.mp hf
      cases hf
      exact h.quiet rfl rfl rfl hpos.symm hpos.ge
  · cases hf

theorem Sync.stop (h : Sync machine p x rsm) (hs : rsm.stop calls = some (rsm', calls')) :
    Sync machine p x rsm' := by
  unfold RSM.stop at hs
  split at hs
  · rename_i hr _
    cases hs
    have hpos : position rsm = rsm.lastApplied := by simp [position, hr]
    exact h.quiet rfl rfl rfl hpos.symm hpos.ge
  · cases hs

/-- The Raft below has really run to where it is, and the servers above it agree with it. -/
structure Grounded (machine : StateMachine R V B St)
    (past : List (Transition (Cluster n (Command n R) (SnapshotData B))
      (RaftCluster.Label n (Command n R)))) (w : Stack n R V B St) : Prop where
  run : Run (RaftCluster.cluster n (service machine)) past w.raft
  sync : ∀ p, Sync machine p (w.raft.procs p) (w.rsms p)
  booked : Booked past (w.calls.map ticket)

theorem sync_update {raft : Cluster n (Command n R) (SnapshotData B)}
    (hothers : ∀ q, q ≠ p → Sync machine q (raft.procs q) (w.rsms q))
    (hp : Sync machine p (raft.procs p) rsm) (q : Fin n) :
    Sync machine q (raft.procs q) (Function.update w.rsms p rsm q) := by
  by_cases hq : q = p
  · subst hq
    rwa [Function.update_self]
  · rw [Function.update_of_ne hq]
    exact hothers q hq

theorem Frame.sync {raft : Cluster n (Command n R) (SnapshotData B)} (hf : Frame w.raft raft)
    (hs : ∀ q, Sync machine q (w.raft.procs q) (w.rsms q)) (q : Fin n) :
    Sync machine q (raft.procs q) (w.rsms q) :=
  (hs q).keep (hf.applyCh q) (hf.states q)

theorem Grounded.above (hg : Grounded machine past w) (hp : Sync machine p (w.raft.procs p) rsm)
    (hc : calls.map ticket = w.calls.map ticket) :
    Grounded machine past { w.setRSM p rsm with calls := calls } :=
  ⟨hg.run, sync_update (fun q _ => hg.sync q) hp, by rw [hc]; exact hg.booked⟩

theorem Grounded.step (round : Restores machine)
    (hg : Grounded machine past w) {l : Label n R} (h : Stepped machine w l u) :
    ∃ past', Grounded machine past' u ∧ Visits past' u.raft w.raft := by
  have hrun : ∀ {l' : RaftCluster.Label n (Command n R)}
      {raft : Cluster n (Command n R) (SnapshotData B)}, w.raft.exec (service machine) l' = some raft →
      Run (RaftCluster.cluster n (service machine)) (⟨w.raft, l', raft⟩ :: past) raft :=
    fun h => hg.run.next h
  have moved : ∀ {l' : RaftCluster.Label n (Command n R)}
      {raft : Cluster n (Command n R) (SnapshotData B)},
      Visits (⟨w.raft, l', raft⟩ :: past) raft w.raft :=
    .inr ⟨_, List.mem_cons_self, rfl⟩
  cases h with
  | raft l raft hl h =>
    refine ⟨_, ⟨hrun h, (internal_frame hl h).sync hg.sync, hg.booked.keep ?_⟩, moved⟩
    rintro q o rfl
    cases hl
  | submitDead p req dead => exact ⟨past, hg, .inl rfl⟩
  | refused p req alive follows =>
    exact ⟨past, hg.above ((hg.sync p).quiet rfl rfl rfl rfl (hg.sync p).behind) rfl, .inl rfl⟩
  | submitted p req alive lead =>
    have hstep : w.raft.exec (service machine) (.start p (some (.op ⟨(w.rsms p).me,
      (w.rsms p).nextId + 1, req⟩))) = some _ := rfl
    have hf := Frame.setRaft w.raft p ((w.raft.procs p).rf.start
      (some (.op ⟨(w.rsms p).me, (w.rsms p).nextId + 1, req⟩))).1
    refine ⟨_, ⟨hrun hstep, sync_update (fun q _ => hf.sync hg.sync q)
      ((hf.sync hg.sync p).quiet rfl rfl rfl rfl (hg.sync p).behind), ?_⟩, moved⟩
    rw [List.map_append]
    refine hg.booked.start ⟨?_, (RaftProvenance.start_result_iff _ _ _ _).mpr ⟨?_, ?_, ?_⟩⟩
    · simp [ticket, (hg.sync p).me]
    · simpa [ticket, (hg.sync p).me] using lead
    · simp [ticket, (hg.sync p).me]
    · simp [ticket, (hg.sync p).me]
  | startForeign p =>
    have hstep : w.raft.exec (service machine) (.start p (some .foreign)) = some _ := rfl
    exact ⟨_, ⟨hrun hstep, (Frame.setRaft _ _ _).sync hg.sync, hg.booked.keep (by simp)⟩, moved⟩
  | receive k c res hk hch hepoch hret =>
    have htickets : _ = w.calls.map ticket :=
      tickets_set (d := { c with ch := none, returned := some res }) hk rfl
    exact ⟨past, ⟨hg.run, hg.sync, by rw [htickets]; exact hg.booked⟩, .inl rfl⟩
  | timeout k c hk hepoch hret rsm c' h =>
    exact ⟨past, hg.above ((hg.sync c.server).timeout h) (tickets_set hk (ticket_timeout h)), .inl rfl⟩
  | send p msg raft hmsg h =>
    refine ⟨_, ⟨hrun h, ?_, hg.booked.keep (by simp)⟩, moved⟩
    obtain ⟨m, hm, h⟩ := Option.bind_eq_some_iff.mp h
    rw [hmsg] at hm
    cases hm
    cases h
    refine sync_update ?_ ?_
    · intro q hq
      simpa [Cluster.setProc, hq] using hg.sync q
    · exact (hg.sync p).send (by simp [Cluster.setProc]) (by simp [Cluster.setProc])
  | read p raft rsm calls hraft h =>
    refine ⟨_, ⟨hrun hraft, ?_, by rw [(fed_read h).tickets]; exact hg.booked.keep (by simp)⟩, moved⟩
    obtain ⟨g, hi, _⟩ := RaftSafety.visits_inv hg.run
    obtain ⟨hr, i, _, _, hle, hread⟩ := (hg.sync p).reads round (hi.procs p) hraft h
    refine sync_update ?_ ((hg.sync p).read hr hle hread)
    intro q hq
    refine (hg.sync q).keep ?_ ?_ <;>
      cases RaftCluster.exec_spec hraft <;> simp [Cluster.setProc, hq]
  | finish p rsm calls h =>
    exact ⟨past, hg.above ((hg.sync p).finish h) (fed_finish h).tickets, .inl rfl⟩
  | skipSnapshot p persistBytes hr =>
    exact ⟨past, hg.above ((hg.sync p).quiet rfl rfl rfl (by simp [position, hr]) (hg.sync p).behind)
      rfl, .inl rfl⟩
  | snapshot p persistBytes rf hr h =>
    -- what is handed to Raft is the state the Raft model has recorded for that index
    have hpos : position (w.rsms p) = (w.rsms p).lastApplied := by simp [position, hr]
    have hstands := (hg.sync p).stands
    rw [hpos] at hstands
    obtain ⟨k, hk⟩ := List.mem_iff_getElem?.mp hstands
    have hstep : w.raft.exec (service machine) (.snapshot p k) = some (w.raft.setRaft p rf) := by
      simp [Cluster.exec, hk, h]
    have hf := Frame.setRaft w.raft p rf
    exact ⟨_, ⟨hrun hstep, sync_update (fun q _ => hf.sync hg.sync q)
      ((hf.sync hg.sync p).quiet rfl rfl rfl (by simp [position, hr]) (hg.sync p).behind),
      hg.booked.keep (by simp)⟩, moved⟩
  | stop p rsm calls h =>
    exact ⟨past, hg.above ((hg.sync p).stop h) (fed_stop h).tickets, .inl rfl⟩
  | restart p raft h =>
    refine ⟨_, ⟨hrun h, ?_, hg.booked.keep (by simp)⟩, moved⟩
    obtain ⟨g, hi, _⟩ := RaftSafety.visits_inv hg.run
    cases h
    refine sync_update ?_ ?_
    · intro q hq
      simpa [Cluster.setProc, hq] using hg.sync q
    · simp only [Cluster.setProc, Function.update_self]
      exact Sync.boot round (hi.procs p).raft.make _

theorem grounded_run (round : Restores machine)
    (run : Run (stack n machine maxraftstate) tr w) : ∃ past, Grounded machine past w := by
  refine run.invariant (I := fun w => ∃ past, Grounded machine past w) ?_ ?_
  · rintro _ rfl
    refine ⟨[], .start rfl, ?_, ?_⟩
    · intro p
      exact Sync.boot round (RaftHistory.raft_init p) 0
    · exact ⟨fun _ ht => (by cases ht), fun _ hx => (by cases hx), List.Pairwise.nil⟩
  · rintro w l u ⟨past, hg⟩ h
    obtain ⟨past', hg', _⟩ := hg.step round (exec_spec h)
    exact ⟨past', hg'⟩

end runs

section replicas
variable {machine : StateMachine R V B St} {maxraftstate : ℤ} {w : Stack n R V B St}
  {d d' : List (RaftCluster.Delivery n (Command n R) (SnapshotData B))}
  {cs cs' : List (Command n R)}
  {past : List (Transition (Cluster n (Command n R) (SnapshotData B))
    (RaftCluster.Label n (Command n R)))}
  {tr : List (Transition (Stack n R V B St) (Label n R))}

def commandAt (i : ℕ) (x : RaftCluster.Delivery n (Command n R) (SnapshotData B)) :
    Option (Command n R) :=
  match x.msg with
  | .command c j => if j = i then some (commandToOp c) else none
  | .snapshot _ _ _ => none

def agreed (d : List (RaftCluster.Delivery n (Command n R) (SnapshotData B))) (i : ℕ) :
    Option (Command n R) :=
  d.findSome? (commandAt i)

theorem commandAt_eq_some {i : ℕ} {x : RaftCluster.Delivery n (Command n R) (SnapshotData B)}
    {c : Command n R} : commandAt i x = some c ↔ ∃ o, x.msg = .command o i ∧ commandToOp o = c := by
  unfold commandAt
  cases x.msg with
  | command o j =>
    simp only [RaftModel.ApplyMsg.command.injEq]
    split_ifs with h
    · subst h
      simp
    · simp [h]
  | snapshot data t j => simp

def Logged (d : List (RaftCluster.Delivery n (Command n R) (SnapshotData B)))
    (cs : List (Command n R)) : Prop :=
  ∀ i c, cs[i]? = some c → ∃ x ∈ d, commandAt (i + 1) x = some c

theorem Logged.mono (hd : d ⊆ d') (h : Logged d cs) : Logged d' cs := by
  intro i c hc
  obtain ⟨x, hx, rest⟩ := h i c hc
  exact ⟨x, hd hx, rest⟩

def Agree (d : List (RaftCluster.Delivery n (Command n R) (SnapshotData B))) : Prop :=
  ∀ x ∈ d, ∀ y ∈ d, ∀ i c c', commandAt i x = some c → commandAt i y = some c' → c = c'

theorem Agree.agreed (ha : Agree d) {i : ℕ} {c : Command n R} :
    agreed d i = some c ↔ ∃ x ∈ d, commandAt i x = some c := by
  constructor
  · intro h
    obtain ⟨x, hx, hc⟩ := List.exists_of_findSome?_eq_some h
    exact ⟨x, hx, hc⟩
  · rintro ⟨x, hx, hc⟩
    cases h : RsmStack.agreed d i with
    | none =>
      rw [RsmStack.agreed, List.findSome?_eq_none_iff] at h
      rw [h x hx] at hc
      cases hc
    | some c' =>
      obtain ⟨y, hy, hc'⟩ := List.exists_of_findSome?_eq_some h
      rw [ha y hy x hx i c' c hc' hc]

theorem Logged.agreed (ha : Agree d) (h : Logged d cs) (i : ℕ) (hi : i < cs.length) :
    agreed d (i + 1) = cs[i]? := by
  rw [List.getElem?_eq_getElem hi]
  exact ha.agreed.mpr (h i _ (List.getElem?_eq_getElem hi))

/-- Delivered logs differ only in how long they are. -/
theorem Logged.comparable (ha : Agree d) (h : Logged d cs) (h' : Logged d cs')
    (hle : cs.length ≤ cs'.length) : cs = cs'.take cs.length := by
  apply List.ext_getElem?
  intro i
  rcases Nat.lt_or_ge i cs.length with hi | hi
  · rw [List.getElem?_take_of_lt hi, ← h.agreed ha i hi, h'.agreed ha i (by omega)]
  · rw [List.getElem?_eq_none hi, List.getElem?_eq_none (by simp; omega)]

theorem Grounded.agree (hg : Grounded machine past w) : Agree w.raft.delivered := by
  obtain ⟨g, hi, _⟩ := RaftSafety.visits_inv hg.run
  intro x hx y hy i c c' hc hc'
  obtain ⟨o, ho, rfl⟩ := commandAt_eq_some.mp hc
  obtain ⟨o', ho', rfl⟩ := commandAt_eq_some.mp hc'
  rw [RaftSafety.command_agrees hi hx hy ho ho']

/-- The service of every server is what the delivered commands make of a new one. -/
theorem Grounded.state (round : Restores machine)
    (hg : Grounded machine past w) {p : Fin n} {k : ℕ}
    (hk : (k, (w.rsms p).encodeSnapshot machine k) ∈ (w.raft.procs p).states) :
    ∃ cs, Logged w.raft.delivered cs ∧ cs.length = k ∧ (w.rsms p).sm = fold machine cs := by
  obtain ⟨g, hi, _⟩ := RaftSafety.visits_inv hg.run
  obtain ⟨hreach, l, hdec, hlen, hstate⟩ := (hi.procs p).states _ hk
  dsimp only at hlen hstate hreach
  rw [stateAfter_service round, RSM.encodeSnapshot, SnapshotData.mk.injEq] at hstate
  refine ⟨commands l, ?_, by simp [commands, hlen], ?_⟩
  · intro i c hc
    simp only [commands, List.getElem?_map, Option.map_eq_some_iff] at hc
    obtain ⟨e, he, rfl⟩ := hc
    obtain ⟨y, hy, hmsg⟩ := RaftSafety.decided_delivered hi hdec (by rw [hlen]; exact hreach) he
    exact ⟨y, hy, commandAt_eq_some.mpr ⟨_, hmsg, rfl⟩⟩
  · rw [← round _ (hg.sync p).occurs, hstate.2, round _ (occurs_fold _)]

theorem Grounded.submitted (hg : Grounded machine past w) {i : ℕ} {o : Op n R}
    {x : RaftCluster.Delivery n (Command n R) (SnapshotData B)} (hx : x ∈ w.raft.delivered)
    (h : commandAt i x = some (.op o)) : ∃ c ∈ w.calls, c.index = i ∧ c.op = o := by
  obtain ⟨g, hi, ha⟩ := RaftProvenance.accounts_run hg.run
  obtain ⟨c, hmsg, hc⟩ := commandAt_eq_some.mp h
  obtain ⟨y, hy, p, t, hs⟩ := RaftProvenance.delivered_started hi ha hx hmsg
  have hsome : c = some (.op o) := by
    cases c with
    | none => cases hc
    | some c => rw [← hc]; rfl
  rw [hsome] at hs
  obtain ⟨_, htk, _, ho, hindex, _⟩ := hg.booked.all y hy p o i t hs
  obtain ⟨call, hcall, rfl⟩ := List.mem_map.mp htk
  exact ⟨call, hcall, hindex, ho⟩

/-- The servers are replicas: one sequence of commands, each of them delivered for its index and,
    if it is an `Op`, submitted by a call that was given that index; and every server's state
    is what the first `position` of them make of a new service. -/
structure Replicated (machine : StateMachine R V B St) (w : Stack n R V B St) : Prop where
  agreed : ∀ x ∈ w.raft.delivered, ∀ i c, commandAt i x = some c →
    agreed w.raft.delivered i = some c
  submitted : ∀ i o, RsmStack.agreed w.raft.delivered i = some (.op o) →
    ∃ c ∈ w.calls, c.index = i ∧ c.op = o
  state : ∀ p, ∃ cs, (w.rsms p).sm = fold machine cs ∧ cs.length = position (w.rsms p) ∧
    ∀ i < cs.length, RsmStack.agreed w.raft.delivered (i + 1) = cs[i]?

theorem replicated (round : Restores machine)
    (run : Run (stack n machine maxraftstate) tr w) : Replicated machine w := by
  obtain ⟨past, hg⟩ := grounded_run round run
  refine ⟨fun x hx i c hc => hg.agree.agreed.mpr ⟨x, hx, hc⟩, ?_, ?_⟩
  · intro i o h
    obtain ⟨x, hx, hc⟩ := hg.agree.agreed.mp h
    exact hg.submitted hx hc
  · intro p
    obtain ⟨cs, hlog, hlen, hstate⟩ := hg.state round (hg.sync p).stands
    exact ⟨cs, hstate, hlen, hlog.agreed hg.agree⟩

def adder : StateMachine ℕ ℕ ℕ ℕ := ⟨0, fun total k => (total + k, total + k), id, id⟩

/-- One server submits 7 and both apply it; the first one compacts its log and restarts. -/
theorem replicated_sample : ∃ r, replay (Stack.exec adder 10) (initial adder) []
      [.raft (.tick (0 : Fin 2)), .raft (.startElection 0), .raft (.sendRequestVote 0 1 1),
        .raft (.handle 0), .raft (.reply 0), .submit 0 7, .raft (.replicateOnce 0 1),
        .raft (.handle 0), .raft (.reply 0), .raft (.applier 0), .send 0, .read 0, .finish 0,
        .maybeSnapshot 0 10, .raft (.replicateOnce 0 1), .raft (.handle 0), .raft (.applier 1),
        .send 1, .read 1, .restart 0] = some r ∧
    (r.2.raft.procs 0).rf.lastIncludedIndex = 1 ∧
    (∀ p, (r.2.rsms p).sm = 7 ∧ position (r.2.rsms p) = 1) ∧ Replicated adder r.2 := by
  have hsome : (replay (Stack.exec adder 10) (initial adder) []
      [.raft (.tick (0 : Fin 2)), .raft (.startElection 0), .raft (.sendRequestVote 0 1 1),
        .raft (.handle 0), .raft (.reply 0), .submit 0 7, .raft (.replicateOnce 0 1),
        .raft (.handle 0), .raft (.reply 0), .raft (.applier 0), .send 0, .read 0, .finish 0,
        .maybeSnapshot 0 10, .raft (.replicateOnce 0 1), .raft (.handle 0), .raft (.applier 1),
        .send 1, .read 1, .restart 0]).map (fun r => decide
        ((r.2.raft.procs 0).rf.lastIncludedIndex = 1 ∧
          ∀ p, (r.2.rsms p).sm = 7 ∧ position (r.2.rsms p) = 1)) = some true := by decide +kernel
  obtain ⟨r, hr, hd⟩ := Option.map_eq_some_iff.mp hsome
  obtain ⟨hbase, hall⟩ := of_decide_eq_true hd
  exact ⟨r, hr, hbase, hall,
    replicated (fun _ _ => rfl) (Run.replay (fun _ _ _ h => h) _ (.start rfl) hr)⟩

end replicas

end DistributedLabs.RsmStack
