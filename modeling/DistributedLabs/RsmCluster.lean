import DistributedLabs.RsmModel
import DistributedLabs.Runs

set_option autoImplicit false

/-!
# Servers that submit to a Raft of which little is assumed

Raft is what the scheduler makes of it. The command it delivers for an index was
passed to an earlier `Start` that returned that index, and is the same for all.
-/
namespace DistributedLabs.RsmCluster
open RsmModel Runs

structure Server (n : ℕ) (R V B St : Type) where
  rsm : RSM n R V B St
  epoch : ℕ
  /-- The snapshot in the persister. -/
  persisted : Option (SnapshotData B)

/-- A call of `DoOp` by the reader of one incarnation of a server. -/
structure Applied (n : ℕ) (R V : Type) where
  server : Fin n
  epoch : ℕ
  index : ℕ
  req : R
  result : V

structure World (n : ℕ) (R V B St : Type) where
  servers : Fin n → Server n R V B St
  /-- The `Submit` calls whose `Start` returned an index, in that order. -/
  calls : List (Submission n R V)
  /-- The indices that `Start` returned for commands that are no `Op`. -/
  foreign : List ℕ
  /-- The command delivered for an index, once one has been. -/
  decided : ℕ → Option (Command n R)
  applied : List (Applied n R V)

inductive Label (n : ℕ) (R B : Type) where
  | submit (p : Fin n) (req : R) (index term : ℕ) (isLeader : Bool)
  | receive (k : ℕ)
  | timeout (k curTerm : ℕ) (isLeader : Bool)
  | startForeign (index : ℕ)
  | deliver (p : Fin n) (command : Command n R) (index : ℕ)
  | deliverSnapshot (p : Fin n) (data : Option (SnapshotData B)) (index : ℕ)
  | install (p : Fin n) (data : Option (SnapshotData B))
  | read (p : Fin n)
  | finish (p : Fin n)
  | maybeSnapshot (p : Fin n) (persistBytes : ℤ)
  | stop (p : Fin n)
  | restart (p : Fin n)

variable {n : ℕ} {R V B St : Type}

def World.Started (w : World n R V B St) (command : Command n R) (index : ℕ) : Prop :=
  match command with
  | .op o => ∃ c ∈ w.calls, c.index = index ∧ c.op = o
  | .foreign => index ∈ w.foreign

instance [DecidableEq R] (w : World n R V B St) (command : Command n R) (index : ℕ) :
    Decidable (w.Started command index) :=
  match command with
  | .op o => inferInstanceAs (Decidable (∃ c ∈ w.calls, c.index = index ∧ c.op = o))
  | .foreign => inferInstanceAs (Decidable (index ∈ w.foreign))

def initial (machine : StateMachine R V B St) : World n R V B St :=
  { servers := fun p => ⟨RSM.makeRSM machine p none, 0, none⟩
    calls := []
    foreign := []
    decided := fun _ => none
    applied := [] }

namespace World

def setServer (w : World n R V B St) (p : Fin n) (x : Server n R V B St) : World n R V B St :=
  { w with servers := Function.update w.servers p x }

def setRSM (w : World n R V B St) (p : Fin n) (rsm : RSM n R V B St) : World n R V B St :=
  w.setServer p { w.servers p with rsm := rsm }

/-- The reader's `DoOp`, if it has just called it. -/
def record (w : World n R V B St) (p : Fin n) : Reader n R V → List (Applied n R V)
  | .applied index op result =>
    ⟨p, (w.servers p).epoch, index, op.req, result⟩ :: w.applied
  | _ => w.applied

def exec [DecidableEq R] (machine : StateMachine R V B St) (maxraftstate : ℤ)
    (w : World n R V B St) : Label n R B → Option (World n R V B St)
  | .submit p req index term isLeader =>
    let x := w.servers p
    let r := x.rsm.submit x.epoch w.calls.length req index term isLeader
    some { w.setRSM p r.1 with calls := w.calls ++ r.2.toList }
  | .receive k => do
    let c ← w.calls[k]?
    let res ← c.ch
    if c.epoch = (w.servers c.server).epoch ∧ c.returned = none then
      some { w with calls := w.calls.set k { c with ch := none, returned := some res } }
    else none
  | .timeout k curTerm isLeader => do
    let c ← w.calls[k]?
    if c.epoch = (w.servers c.server).epoch ∧ c.returned = none then
      let r := (w.servers c.server).rsm.timeout k c curTerm isLeader
      some { w.setRSM c.server r.1 with calls := w.calls.set k r.2 }
    else none
  | .startForeign index => some { w with foreign := index :: w.foreign }
  | .deliver p command index =>
    if w.Started command index ∧ (w.decided index = none ∨ w.decided index = some command) then
      let rsm := (w.servers p).rsm
      some { w.setRSM p { rsm with applyCh := rsm.applyCh ++ [.command command index] } with
        decided := Function.update w.decided index (some command) }
    else none
  | .deliverSnapshot p data index =>
    let rsm := (w.servers p).rsm
    some (w.setRSM p { rsm with applyCh := rsm.applyCh ++ [.snapshot data index] })
  | .install p data => some (w.setServer p { w.servers p with persisted := data })
  | .read p => do
    let r ← (w.servers p).rsm.read machine w.calls
    some { w.setRSM p r.1 with calls := r.2, applied := w.record p r.1.reader }
  | .finish p => do
    let r ← (w.servers p).rsm.finish w.calls
    some { w.setRSM p r.1 with calls := r.2 }
  | .maybeSnapshot p persistBytes =>
    let x := w.servers p
    match x.rsm.reader with
    | .checking => some (w.setServer p { x with
        rsm := { x.rsm with reader := .receiving }
        persisted := (x.rsm.maybeSnapshot machine maxraftstate persistBytes).or x.persisted })
    | _ => none
  | .stop p => do
    let r ← (w.servers p).rsm.stop w.calls
    some { w.setRSM p r.1 with calls := r.2 }
  | .restart p =>
    let x := w.servers p
    some (w.setServer p ⟨RSM.makeRSM machine p x.persisted, x.epoch + 1, x.persisted⟩)

end World

def cluster [DecidableEq R] (n : ℕ) (machine : StateMachine R V B St) (maxraftstate : ℤ) :
    Machine (World n R V B St) (Label n R B) where
  init w := w = initial machine
  step w l u := w.exec machine maxraftstate l = some u

end DistributedLabs.RsmCluster
