import Mathlib.Data.Int.Notation
import Mathlib.Data.List.Basic
import Mathlib.Logic.Function.Basic
import Mathlib.Tactic.Common

set_option autoImplicit false

/-!
# The replicated state machine above Raft

`kvraft1/rsm/rsm.go`: each definition is what one goroutine does while it holds
`rsm.mu`, or between two of its critical sections. A waiter is the record of the
`Submit` call it belongs to; a map from indices to waiters holds the calls' numbers.
Bytes are what they encode.
-/
namespace DistributedLabs.RsmModel

inductive Err where
  | ok | errWrongLeader
deriving DecidableEq

structure Op (n : ℕ) (R : Type) where
  me : Fin n
  id : ℕ
  req : R
deriving DecidableEq

/-- What `commandToOp` makes of a command. -/
inductive Command (n : ℕ) (R : Type) where
  | op (o : Op n R)
  | foreign
deriving DecidableEq

structure SnapshotData (B : Type) where
  lastApplied : ℕ
  state : B

structure OpResult (V : Type) where
  val : Option V
  err : Err
deriving DecidableEq

structure StateMachine (R V B St : Type) where
  initial : St
  doOp : St → R → V × St
  snapshot : St → B
  restore : B → St

inductive ApplyMsg (n : ℕ) (R B : Type) where
  | command (command : Command n R) (commandIndex : ℕ)
  | snapshot (data : Option (SnapshotData B)) (snapshotIndex : ℕ)

structure Submission (n : ℕ) (R V : Type) where
  server : Fin n
  epoch : ℕ
  op : Op n R
  index : ℕ
  term : ℕ
  ch : Option (OpResult V)
  returned : Option (OpResult V)

/-- Where `reader` stands: at the head of its loop, between `DoOp` and the lock, about to
    call `maybeSnapshot`, or past the loop. -/
inductive Reader (n : ℕ) (R V : Type) where
  | receiving
  | applied (index : ℕ) (op : Op n R) (result : V)
  | checking
  | stopped

structure RSM (n : ℕ) (R V B St : Type) where
  me : Fin n
  sm : St
  applyCh : List (ApplyMsg n R B)
  dead : Bool
  pending : List (ℕ × ℕ)
  lastApplied : ℕ
  nextId : ℕ
  reader : Reader n R V

variable {n : ℕ} {R V B St : Type}

namespace Submission

/-- The `select` that sends to a channel of one slot and drops what does not fit. -/
def offer (c : Submission n R V) (res : OpResult V) : Submission n R V :=
  match c.ch with
  | none => { c with ch := some res }
  | some _ => c

end Submission

def post (calls : List (Submission n R V)) (k : ℕ) (res : OpResult V) :
    List (Submission n R V) :=
  calls.modify k (fun c => c.offer res)

def wake (calls : List (Submission n R V)) (ws : List (ℕ × ℕ)) : List (Submission n R V) :=
  ws.foldl (fun calls w => post calls w.2 ⟨none, .errWrongLeader⟩) calls

namespace RSM

def restoreSnapshot (machine : StateMachine R V B St) (rsm : RSM n R V B St) :
    Option (SnapshotData B) → RSM n R V B St
  | none => rsm
  | some sd => { rsm with
      sm := machine.restore sd.state
      lastApplied := if rsm.lastApplied < sd.lastApplied then sd.lastApplied
        else rsm.lastApplied }

def makeRSM (machine : StateMachine R V B St) (me : Fin n) (snapshot : Option (SnapshotData B)) :
    RSM n R V B St :=
  let rsm : RSM n R V B St :=
    { me := me
      sm := machine.initial
      applyCh := []
      dead := false
      pending := []
      lastApplied := 0
      nextId := 0
      reader := .receiving }
  rsm.restoreSnapshot machine snapshot

def encodeSnapshot (machine : StateMachine R V B St) (rsm : RSM n R V B St) (index : ℕ) :
    SnapshotData B :=
  ⟨index, machine.snapshot rsm.sm⟩

def maybeSnapshot (machine : StateMachine R V B St) (maxraftstate persistBytes : ℤ)
    (rsm : RSM n R V B St) : Option (SnapshotData B) :=
  if maxraftstate ≤ 0 ∨ rsm.lastApplied = 0 then none
  else if persistBytes * 10 < maxraftstate * 9 then none
  else some (rsm.encodeSnapshot machine rsm.lastApplied)

def readSnapshot (machine : StateMachine R V B St) (rsm : RSM n R V B St)
    (calls : List (Submission n R V)) (data : Option (SnapshotData B)) (index : ℕ) :
    RSM n R V B St × List (Submission n R V) :=
  let rsm := if rsm.lastApplied < index then rsm.restoreSnapshot machine data else rsm
  ({ rsm with pending := rsm.pending.filter (fun w => decide (rsm.lastApplied < w.1)) },
    wake calls (rsm.pending.filter (fun w => decide (w.1 ≤ rsm.lastApplied))))

def readCommand (machine : StateMachine R V B St) (rsm : RSM n R V B St) (command : Command n R)
    (index : ℕ) : RSM n R V B St :=
  match command with
  | .foreign => rsm
  | .op o =>
    if index ≤ rsm.lastApplied then rsm
    else
      let r := machine.doOp rsm.sm o.req
      { rsm with sm := r.2, reader := .applied index o r.1 }

def read (machine : StateMachine R V B St) (rsm : RSM n R V B St)
    (calls : List (Submission n R V)) : Option (RSM n R V B St × List (Submission n R V)) :=
  match rsm.reader, rsm.applyCh with
  | .receiving, .snapshot data index :: rest =>
    some ({ rsm with applyCh := rest }.readSnapshot machine calls data index)
  | .receiving, .command command index :: rest =>
    some ({ rsm with applyCh := rest }.readCommand machine command index, calls)
  | _, _ => none

def finish (rsm : RSM n R V B St) (calls : List (Submission n R V)) :
    Option (RSM n R V B St × List (Submission n R V)) :=
  match rsm.reader with
  | .applied index op result =>
    let rsm := { rsm with lastApplied := index, reader := .checking }
    match rsm.pending.lookup index with
    | none => some (rsm, calls)
    | some k => do
      let w ← calls[k]?
      let res := if w.op.id = op.id ∧ op.me = rsm.me then ⟨some result, .ok⟩
        else ⟨none, .errWrongLeader⟩
      some ({ rsm with pending := rsm.pending.filter (fun x => decide (x.1 ≠ index)) },
        post calls k res)
  | _ => none

def stop (rsm : RSM n R V B St) (calls : List (Submission n R V)) :
    Option (RSM n R V B St × List (Submission n R V)) :=
  match rsm.reader, rsm.applyCh with
  | .receiving, [] => some ({ rsm with dead := true, pending := [], reader := .stopped },
      wake calls rsm.pending)
  | _, _ => none

/-- `Submit` up to its loop: `number` is the call's own, the last three arguments are what
    `Start` returns. A call that gets no waiter has returned `ErrWrongLeader`. -/
def submit (rsm : RSM n R V B St) (epoch number : ℕ) (req : R) (index term : ℕ) (isLeader : Bool) :
    RSM n R V B St × Option (Submission n R V) :=
  if rsm.dead then (rsm, none)
  else
    let rsm := { rsm with nextId := rsm.nextId + 1 }
    let op : Op n R := ⟨rsm.me, rsm.nextId, req⟩
    if ¬ isLeader then (rsm, none)
    else
      ({ rsm with
          pending := (index, number) :: rsm.pending.filter (fun x => decide (x.1 ≠ index)) },
        some ⟨rsm.me, epoch, op, index, term, none, none⟩)

/-- The timeout branch of `Submit`; the last two arguments are what `GetState` returns. -/
def timeout (rsm : RSM n R V B St) (number : ℕ) (c : Submission n R V) (curTerm : ℕ)
    (isLeader : Bool) : RSM n R V B St × Submission n R V :=
  if rsm.dead then (rsm, { c with returned := some ⟨none, .errWrongLeader⟩ })
  else if ¬ isLeader ∨ curTerm ≠ c.term then
    (if rsm.pending.lookup c.index = some number then
        { rsm with pending := rsm.pending.filter (fun x => decide (x.1 ≠ c.index)) } else rsm,
      { c with returned := some ⟨none, .errWrongLeader⟩ })
  else (rsm, c)

end RSM
end DistributedLabs.RsmModel
