import DistributedLabs.RsmModel
import DistributedLabs.Runs

set_option autoImplicit false

/-!
# The state of a replicated server is a fold over the agreed commands

Raft is assumed to put one agreed sequence of commands on every `applyCh`, in index
order. A snapshot message carries bytes that some server handed to `Snapshot` for its
index; it may be ahead of the stream or behind it, and in the second case the commands
after it may come again. After a restart the stream goes on behind the persisted snapshot.
-/
namespace DistributedLabs.RsmFold
open RsmModel Runs

structure Server (n : ℕ) (R V B St : Type) where
  rsm : RSM n R V B St
  epoch : ℕ
  /-- The snapshot in the persister and the index Raft saved it for. -/
  persisted : Option (ℕ × SnapshotData B)
  /-- Raft goes on with the command behind this index. -/
  position : ℕ

structure World (n : ℕ) (R V B St : Type) where
  servers : Fin n → Server n R V B St
  calls : List (Submission n R V)
  /-- What was passed to `Snapshot`, with its index. -/
  handed : List (ℕ × SnapshotData B)

inductive Label (n : ℕ) (R : Type) where
  | submit (p : Fin n) (req : R) (index term : ℕ) (isLeader : Bool)
  | receive (k : ℕ)
  | timeout (k curTerm : ℕ) (isLeader : Bool)
  | deliver (p : Fin n)
  | deliverSnapshot (p : Fin n) (k next : ℕ)
  | install (p : Fin n) (k : ℕ)
  | read (p : Fin n)
  | finish (p : Fin n)
  | maybeSnapshot (p : Fin n) (persistBytes : ℤ) (saved : Bool)
  | stop (p : Fin n)
  | restart (p : Fin n)

variable {n : ℕ} {R V B St : Type}

def boot (machine : StateMachine R V B St) (p : Fin n) (epoch : ℕ)
    (persisted : Option (ℕ × SnapshotData B)) : Server n R V B St :=
  { rsm := RSM.makeRSM machine p (persisted.map Prod.snd)
    epoch := epoch
    persisted := persisted
    position := (persisted.map Prod.fst).getD 0 }

def initial (machine : StateMachine R V B St) : World n R V B St :=
  { servers := fun p => boot machine p 0 none
    calls := []
    handed := [] }

namespace World

def setServer (w : World n R V B St) (p : Fin n) (x : Server n R V B St) : World n R V B St :=
  { w with servers := Function.update w.servers p x }

def setRSM (w : World n R V B St) (p : Fin n) (rsm : RSM n R V B St) : World n R V B St :=
  w.setServer p { w.servers p with rsm := rsm }

def feed (w : World n R V B St) (p : Fin n) (msg : ApplyMsg n R B) (position : ℕ) :
    World n R V B St :=
  let x := w.servers p
  w.setServer p { x with
    rsm := { x.rsm with applyCh := x.rsm.applyCh ++ [msg] }
    position := position }

def exec (machine : StateMachine R V B St) (maxraftstate : ℤ) (agreed : ℕ → Command n R)
    (w : World n R V B St) : Label n R → Option (World n R V B St)
  | .submit p req index term isLeader =>
    let x := w.servers p
    let r := x.rsm.submit x.epoch w.calls.length req index term isLeader
    some { w.setRSM p r.1 with calls := w.calls ++ r.2.toList }
  | .receive k => do
    let c ← w.calls[k]?
    let res ← c.ch
    if c.epoch = (w.servers c.server).epoch ∧ c.returned = none then
      some { w with calls := w.calls.set k { c with ch := none, returned := some res } }
    else none
  | .timeout k curTerm isLeader => do
    let c ← w.calls[k]?
    if c.epoch = (w.servers c.server).epoch ∧ c.returned = none then
      let r := (w.servers c.server).rsm.timeout k c curTerm isLeader
      some { w.setRSM c.server r.1 with calls := w.calls.set k r.2 }
    else none
  | .deliver p =>
    let index := (w.servers p).position + 1
    some (w.feed p (.command (agreed index) index) index)
  | .deliverSnapshot p k next => do
    let h ← w.handed[k]?
    if h.1 ≤ next ∧ next ≤ max h.1 (w.servers p).position then
      some (w.feed p (.snapshot (some h.2) h.1) next)
    else none
  | .install p k => do
    let h ← w.handed[k]?
    some (w.setServer p { w.servers p with persisted := some h })
  | .read p => do
    let r ← (w.servers p).rsm.read machine w.calls
    some { w.setRSM p r.1 with calls := r.2 }
  | .finish p => do
    let r ← (w.servers p).rsm.finish w.calls
    some { w.setRSM p r.1 with calls := r.2 }
  | .maybeSnapshot p persistBytes saved =>
    let x := w.servers p
    match x.rsm.reader with
    | .checking =>
      let rsm := { x.rsm with reader := .receiving }
      match x.rsm.maybeSnapshot machine maxraftstate persistBytes with
      | none => some (w.setRSM p rsm)
      | some data =>
        let h := (x.rsm.lastApplied, data)
        some { w.setServer p { x with
            rsm := rsm
            persisted := if saved then some h else x.persisted } with
          handed := h :: w.handed }
    | _ => none
  | .stop p => do
    let r ← (w.servers p).rsm.stop w.calls
    some { w.setRSM p r.1 with calls := r.2 }
  | .restart p =>
    let x := w.servers p
    some (w.setServer p (boot machine p (x.epoch + 1) x.persisted))

end World

/-- All runs of `n` servers over a Raft that has agreed on the commands `agreed 1`,
    `agreed 2` and so on. -/
def replicas (n : ℕ) (machine : StateMachine R V B St) (maxraftstate : ℤ)
    (agreed : ℕ → Command n R) : Machine (World n R V B St) (Label n R) where
  init w := w = initial machine
  step w l u := w.exec machine maxraftstate agreed l = some u

section fold
variable (machine : StateMachine R V B St) (agreed : ℕ → Command n R)

def doCommand (st : St) : Command n R → St
  | .foreign => st
  | .op o => (machine.doOp st o.req).2

def stateAt (i : ℕ) : St :=
  ((List.range i).map fun j => agreed (j + 1)).foldl (doCommand machine) machine.initial

theorem stateAt_succ (i : ℕ) :
    stateAt machine agreed (i + 1) =
      doCommand machine (stateAt machine agreed i) (agreed (i + 1)) := by
  simp [stateAt, List.range_succ]

theorem stateAt_skip {i j : ℕ} (hij : i ≤ j)
    (hskip : ∀ k, i < k → k ≤ j → agreed k = .foreign) :
    stateAt machine agreed j = stateAt machine agreed i := by
  induction hij with
  | refl => rfl
  | @step j hij ih =>
    have hij : i ≤ j := hij
    rw [stateAt_succ, hskip (j + 1) (by omega) (Nat.le_refl _)]
    exact ih fun k hk hle => hskip k hk (by omega)

def Encodes (h : ℕ × SnapshotData B) : Prop :=
  h.2.lastApplied = h.1 ∧ h.2.state = machine.snapshot (stateAt machine agreed h.1)

def Feeds : ℕ → List (ApplyMsg n R B) → ℕ → Prop
  | i, [], j => i = j
  | i, .command c k :: ms, j => k = i + 1 ∧ c = agreed k ∧ Feeds k ms j
  | i, .snapshot data k :: ms, j => (∃ sd, data = some sd ∧ Encodes machine agreed (k, sd)) ∧
      ∃ next, k ≤ next ∧ next ≤ max k i ∧ Feeds next ms j

variable {machine agreed}

theorem Feeds.append {i j k : ℕ} {ms ms' : List (ApplyMsg n R B)}
    (h : Feeds machine agreed i ms j) (h' : Feeds machine agreed j ms' k) :
    Feeds machine agreed i (ms ++ ms') k := by
  induction ms generalizing i with
  | nil =>
    cases h
    exact h'
  | cons m ms ih =>
    cases m with
    | command c idx => exact ⟨h.1, h.2.1, ih h.2.2⟩
    | snapshot data idx =>
      obtain ⟨hdata, next, hlow, hhigh, hrest⟩ := h
      exact ⟨hdata, next, hlow, hhigh, ih hrest⟩

/-- A reader at position `i` whose state covers the commands up to `last`. -/
structure Covers (machine : StateMachine R V B St) (agreed : ℕ → Command n R) (last i : ℕ)
    (st : St) : Prop where
  state : st = stateAt machine agreed last
  skipped : ∀ k, last < k → k ≤ i → agreed k = .foreign

/-- Reading back up to `i` again changes nothing that is covered. -/
theorem Covers.rewind {last i j : ℕ} {st : St} (h : Covers machine agreed last i st)
    (hj : j ≤ max last i) : Covers machine agreed last j st :=
  ⟨h.state, fun k hk hle => h.skipped k hk (by omega)⟩

theorem Covers.at_index (i : ℕ) : Covers machine agreed i i (stateAt machine agreed i) :=
  ⟨rfl, fun k hk hle => by omega⟩

theorem Covers.foreign {last i : ℕ} {st : St} (h : Covers machine agreed last i st)
    (hc : agreed (i + 1) = .foreign) : Covers machine agreed last (i + 1) st := by
  refine ⟨h.state, fun k hk hle => ?_⟩
  rcases Nat.lt_or_ge i k with hik | hik
  · rw [show k = i + 1 by omega]
    exact hc
  · exact h.skipped k hk hik

theorem Covers.apply {last i : ℕ} {st : St} (h : Covers machine agreed last i st) {o : Op n R}
    (hc : agreed (i + 1) = .op o) (hlast : last ≤ i) :
    (machine.doOp st o.req).2 = stateAt machine agreed (i + 1) := by
  rw [stateAt_succ, stateAt_skip machine agreed hlast h.skipped, hc, h.state]
  rfl

end fold

section invariant
variable {machine : StateMachine R V B St} {agreed : ℕ → Command n R}

/-- What the service's state is, wherever the reader stands: between `DoOp` and the
    critical section behind it, `lastApplied` is not yet the index that was applied. -/
def StateInv (machine : StateMachine R V B St) (agreed : ℕ → Command n R)
    (rsm : RSM n R V B St) : Prop :=
  match rsm.reader with
  | .applied index _ _ => rsm.sm = stateAt machine agreed index
  | _ => rsm.sm = stateAt machine agreed rsm.lastApplied

def ReaderInv (machine : StateMachine R V B St) (agreed : ℕ → Command n R)
    (rsm : RSM n R V B St) (position : ℕ) : Prop :=
  match rsm.reader with
  | .applied index _ _ => rsm.sm = stateAt machine agreed index ∧
      Feeds machine agreed index rsm.applyCh position
  | _ => ∃ i, Covers machine agreed rsm.lastApplied i rsm.sm ∧
      Feeds machine agreed i rsm.applyCh position

theorem ReaderInv.state {rsm : RSM n R V B St} {position : ℕ}
    (h : ReaderInv machine agreed rsm position) : StateInv machine agreed rsm := by
  unfold ReaderInv at h
  unfold StateInv
  cases hr : rsm.reader with
  | applied index op result =>
    rw [hr] at h
    exact h.1
  | receiving | checking | stopped =>
    rw [hr] at h
    obtain ⟨i, hc, _⟩ := h
    exact hc.state

structure ServerInv (machine : StateMachine R V B St) (agreed : ℕ → Command n R)
    (x : Server n R V B St) : Prop where
  reader : ReaderInv machine agreed x.rsm x.position
  persisted : ∀ h, x.persisted = some h → Encodes machine agreed h

structure Inv (machine : StateMachine R V B St) (agreed : ℕ → Command n R)
    (w : World n R V B St) : Prop where
  servers : ∀ p, ServerInv machine agreed (w.servers p)
  handed : ∀ h ∈ w.handed, Encodes machine agreed h

theorem ReaderInv.same {rsm rsm' : RSM n R V B St} {position : ℕ}
    (h : ReaderInv machine agreed rsm position) (hr : rsm'.reader = rsm.reader)
    (hs : rsm'.sm = rsm.sm) (hl : rsm'.lastApplied = rsm.lastApplied)
    (hc : rsm'.applyCh = rsm.applyCh) : ReaderInv machine agreed rsm' position := by
  unfold ReaderInv at h ⊢
  rw [hr, hs, hl, hc]
  exact h

theorem ReaderInv.feed {rsm : RSM n R V B St} {position next : ℕ} {msg : ApplyMsg n R B}
    (h : ReaderInv machine agreed rsm position)
    (hm : Feeds machine agreed position [msg] next) :
    ReaderInv machine agreed { rsm with applyCh := rsm.applyCh ++ [msg] } next := by
  unfold ReaderInv at h ⊢
  dsimp only
  cases hr : rsm.reader with
  | applied index op result =>
    rw [hr] at h
    exact ⟨h.1, h.2.append hm⟩
  | receiving | checking | stopped =>
    rw [hr] at h
    obtain ⟨i, hc, hf⟩ := h
    exact ⟨i, hc, hf.append hm⟩

theorem covers_restore (round : ∀ st, machine.restore (machine.snapshot st) = st)
    {rsm : RSM n R V B St} {i : ℕ} {sd : SnapshotData B}
    (he : Encodes machine agreed (i, sd)) (hlt : rsm.lastApplied < i) :
    Covers machine agreed (rsm.restoreSnapshot machine (some sd)).lastApplied i
      (rsm.restoreSnapshot machine (some sd)).sm := by
  obtain ⟨hl, hs⟩ := he
  dsimp only at hl hs
  simp only [RSM.restoreSnapshot, hl, hs, hlt, if_true, round]
  exact Covers.at_index i

theorem readSnapshot_reader (machine : StateMachine R V B St) (rsm : RSM n R V B St)
    (calls : List (Submission n R V)) (data : Option (SnapshotData B)) (index : ℕ) :
    (rsm.readSnapshot machine calls data index).1.reader = rsm.reader ∧
      (rsm.readSnapshot machine calls data index).1.applyCh = rsm.applyCh := by
  unfold RSM.readSnapshot
  split_ifs
  · cases data <;> exact ⟨rfl, rfl⟩
  · exact ⟨rfl, rfl⟩

/-- The state after a snapshot message: the newer of what there was and what came. -/
theorem covers_readSnapshot (round : ∀ st, machine.restore (machine.snapshot st) = st)
    (rsm : RSM n R V B St) (calls : List (Submission n R V)) {i k next : ℕ}
    {sd : SnapshotData B} (h : Covers machine agreed rsm.lastApplied i rsm.sm)
    (he : Encodes machine agreed (k, sd)) (hhigh : next ≤ max k i) (hlow : k ≤ next) :
    Covers machine agreed (rsm.readSnapshot machine calls (some sd) k).1.lastApplied next
      (rsm.readSnapshot machine calls (some sd) k).1.sm := by
  unfold RSM.readSnapshot
  by_cases hlt : rsm.lastApplied < k
  · have hc := covers_restore round he hlt
    have hk : sd.lastApplied = k := he.1
    have hl : (rsm.restoreSnapshot machine (some sd)).lastApplied = k := by
      simp only [RSM.restoreSnapshot, hk, hlt, if_true]
    simp only [hlt, if_true]
    refine ⟨hc.state, fun j hj hle => ?_⟩
    change (rsm.restoreSnapshot machine (some sd)).lastApplied < j at hj
    rw [hl] at hj
    exact h.skipped j (by omega) (by omega)
  · simp only [hlt, if_false]
    exact h.rewind (by omega)

theorem reader_read (round : ∀ st, machine.restore (machine.snapshot st) = st)
    {rsm : RSM n R V B St} {calls : List (Submission n R V)} {position : ℕ}
    {r : RSM n R V B St × List (Submission n R V)}
    (h : ReaderInv machine agreed rsm position) (hread : rsm.read machine calls = some r) :
    ReaderInv machine agreed r.1 position := by
  unfold RSM.read at hread
  unfold ReaderInv at h
  split at hread
  · next data k rest hr hch =>
    cases hread
    rw [hr, hch] at h
    obtain ⟨i, hc, ⟨sd, rfl, he⟩, next, hlow, hhigh, hf⟩ := h
    obtain ⟨hr', hch'⟩ :=
      readSnapshot_reader machine { rsm with applyCh := rest } calls (some sd) k
    have hc' := covers_readSnapshot round { rsm with applyCh := rest } calls hc he hhigh hlow
    unfold ReaderInv
    rw [hr', hch']
    simp only [hr] at hc' ⊢
    exact ⟨next, hc', hf⟩
  · next c k rest hr hch =>
    cases hread
    rw [hr, hch] at h
    obtain ⟨i, hc, rfl, rfl, hf⟩ := h
    unfold RSM.readCommand
    cases hcmd : agreed (i + 1) with
    | foreign =>
      dsimp only
      unfold ReaderInv
      rw [hr]
      exact ⟨i + 1, hc.foreign hcmd, hf⟩
    | op o =>
      dsimp only
      split_ifs with hle
      · unfold ReaderInv
        rw [hr]
        exact ⟨i + 1, hc.rewind (by omega), hf⟩
      · exact ⟨hc.apply hcmd (by omega), hf⟩
  · cases hread

theorem reader_finish {rsm : RSM n R V B St} {calls : List (Submission n R V)} {position : ℕ}
    {r : RSM n R V B St × List (Submission n R V)}
    (h : ReaderInv machine agreed rsm position) (hf : rsm.finish calls = some r) :
    ReaderInv machine agreed r.1 position := by
  unfold RSM.finish at hf
  unfold ReaderInv at h
  split at hf
  · next index op result hr =>
    rw [hr] at h
    have done : ∃ i, Covers machine agreed index i rsm.sm ∧
        Feeds machine agreed i rsm.applyCh position :=
      ⟨index, h.1 ▸ Covers.at_index index, h.2⟩
    dsimp only at hf
    split at hf
    · cases hf
      exact done
    · obtain ⟨w, _, hf⟩ := Option.bind_eq_some_iff.mp hf
      cases hf
      exact done
  · cases hf

theorem reader_submit {rsm : RSM n R V B St} {position : ℕ}
    (h : ReaderInv machine agreed rsm position) (epoch number : ℕ) (req : R) (index term : ℕ)
    (isLeader : Bool) :
    ReaderInv machine agreed (rsm.submit epoch number req index term isLeader).1 position := by
  unfold RSM.submit
  split_ifs
  · exact h
  · exact h.same rfl rfl rfl rfl
  · exact h.same rfl rfl rfl rfl

theorem reader_timeout {rsm : RSM n R V B St} {position : ℕ}
    (h : ReaderInv machine agreed rsm position) (number : ℕ) (c : Submission n R V)
    (curTerm : ℕ) (isLeader : Bool) :
    ReaderInv machine agreed (rsm.timeout number c curTerm isLeader).1 position := by
  unfold RSM.timeout
  split_ifs
  · exact h
  · exact h.same rfl rfl rfl rfl
  · exact h
  · exact h

theorem reader_stop {rsm : RSM n R V B St} {calls : List (Submission n R V)} {position : ℕ}
    {r : RSM n R V B St × List (Submission n R V)}
    (h : ReaderInv machine agreed rsm position) (hs : rsm.stop calls = some r) :
    ReaderInv machine agreed r.1 position := by
  unfold RSM.stop at hs
  unfold ReaderInv at h
  split at hs
  · next hr hch =>
    rw [hr] at h
    cases hs
    exact h
  · cases hs

/-- What `maybeSnapshot` hands over encodes the state the reader has reached. -/
theorem maybeSnapshot_encodes {rsm : RSM n R V B St} {maxraftstate persistBytes : ℤ}
    {data : SnapshotData B} (hs : rsm.sm = stateAt machine agreed rsm.lastApplied)
    (h : rsm.maybeSnapshot machine maxraftstate persistBytes = some data) :
    Encodes machine agreed (rsm.lastApplied, data) := by
  unfold RSM.maybeSnapshot at h
  split_ifs at h
  cases h
  exact ⟨rfl, congrArg machine.snapshot hs⟩

theorem boot_inv (round : ∀ st, machine.restore (machine.snapshot st) = st) (p : Fin n)
    (epoch : ℕ) {persisted : Option (ℕ × SnapshotData B)}
    (hp : ∀ h, persisted = some h → Encodes machine agreed h) :
    ServerInv machine agreed (boot machine p epoch persisted) := by
  refine ⟨?_, hp⟩
  cases persisted with
  | none => exact ⟨0, Covers.at_index 0, rfl⟩
  | some h =>
    obtain ⟨i, sd⟩ := h
    obtain ⟨hl, hs⟩ := hp _ rfl
    dsimp only at hl hs
    refine ⟨i, ⟨?_, fun k hk hle => ?_⟩, rfl⟩
    · simp only [boot, RSM.makeRSM, Option.map_some, RSM.restoreSnapshot, hl, hs, round]
      congr 1
      split_ifs <;> omega
    · simp only [boot, RSM.makeRSM, Option.map_some, RSM.restoreSnapshot, hl] at hk
      split_ifs at hk <;> omega

variable {w u : World n R V B St}

theorem Inv.set_server (hi : Inv machine agreed w) {p : Fin n} {x : Server n R V B St}
    (hx : ServerInv machine agreed x) (q : Fin n) :
    ServerInv machine agreed (Function.update w.servers p x q) := by
  by_cases hq : q = p
  · subst hq
    simpa using hx
  · simpa [hq] using hi.servers q

theorem Inv.set_rsm (hi : Inv machine agreed w) {p : Fin n} {rsm : RSM n R V B St}
    (hx : ReaderInv machine agreed rsm (w.servers p).position) (q : Fin n) :
    ServerInv machine agreed ((w.setRSM p rsm).servers q) :=
  hi.set_server (x := { w.servers p with rsm := rsm }) ⟨hx, (hi.servers p).persisted⟩ q

theorem Inv.feed (hi : Inv machine agreed w) {p : Fin n} {msg : ApplyMsg n R B} {next : ℕ}
    (hm : Feeds machine agreed (w.servers p).position [msg] next) :
    Inv machine agreed (w.feed p msg next) :=
  ⟨hi.set_server ⟨(hi.servers p).reader.feed hm, (hi.servers p).persisted⟩, hi.handed⟩

theorem inv_maybeSnapshot {maxraftstate : ℤ} (hi : Inv machine agreed w) {p : Fin n}
    {persistBytes : ℤ} {saved : Bool}
    (h : w.exec machine maxraftstate agreed (.maybeSnapshot p persistBytes saved) = some u) :
    Inv machine agreed u := by
  have hx := hi.servers p
  have hread := hx.reader
  dsimp only [World.exec] at h
  unfold ReaderInv at hread
  split at h
  · next hr =>
    rw [hr] at hread
    have hstate : (w.servers p).rsm.sm =
        stateAt machine agreed (w.servers p).rsm.lastApplied := by
      obtain ⟨i, hc, _⟩ := hread
      exact hc.state
    split at h
    · cases h
      exact ⟨hi.set_rsm hread, hi.handed⟩
    · next data hdata =>
      cases h
      have he := maybeSnapshot_encodes hstate hdata
      refine ⟨hi.set_server ⟨hread, ?_⟩, ?_⟩
      · intro e hs
        cases saved with
        | false => exact hx.persisted e hs
        | true =>
          cases hs
          exact he
      · intro e hm
        rcases List.mem_cons.mp hm with rfl | hm
        · exact he
        · exact hi.handed e hm
  · cases h

theorem inv_exec (round : ∀ st, machine.restore (machine.snapshot st) = st) {maxraftstate : ℤ}
    (hi : Inv machine agreed w) {l : Label n R}
    (h : w.exec machine maxraftstate agreed l = some u) : Inv machine agreed u := by
  cases l with
  | submit p req index term isLeader =>
    cases h
    exact ⟨hi.set_rsm (reader_submit (hi.servers p).reader _ _ _ _ _ _), hi.handed⟩
  | receive k =>
    obtain ⟨c, _, h⟩ := Option.bind_eq_some_iff.mp h
    obtain ⟨res, _, h⟩ := Option.bind_eq_some_iff.mp h
    split_ifs at h
    cases h
    exact ⟨hi.servers, hi.handed⟩
  | timeout k curTerm isLeader =>
    obtain ⟨c, _, h⟩ := Option.bind_eq_some_iff.mp h
    split_ifs at h
    cases h
    exact ⟨hi.set_rsm (reader_timeout (hi.servers c.server).reader _ _ _ _), hi.handed⟩
  | deliver p =>
    cases h
    exact hi.feed ⟨rfl, rfl, rfl⟩
  | deliverSnapshot p k next =>
    obtain ⟨⟨i, sd⟩, hk, h⟩ := Option.bind_eq_some_iff.mp h
    split_ifs at h with hnext
    cases h
    have he := hi.handed _ (List.mem_of_getElem? hk)
    exact hi.feed ⟨⟨sd, rfl, he⟩, next, hnext.1, hnext.2, rfl⟩
  | install p k =>
    obtain ⟨e, hk, h⟩ := Option.bind_eq_some_iff.mp h
    cases h
    refine ⟨hi.set_server ⟨(hi.servers p).reader, ?_⟩, hi.handed⟩
    rintro _ ⟨⟩
    exact hi.handed _ (List.mem_of_getElem? hk)
  | read p =>
    obtain ⟨r, hr, h⟩ := Option.bind_eq_some_iff.mp h
    cases h
    exact ⟨hi.set_rsm (reader_read round (hi.servers p).reader hr), hi.handed⟩
  | finish p =>
    obtain ⟨r, hr, h⟩ := Option.bind_eq_some_iff.mp h
    cases h
    exact ⟨hi.set_rsm (reader_finish (hi.servers p).reader hr), hi.handed⟩
  | maybeSnapshot p persistBytes saved => exact inv_maybeSnapshot hi h
  | stop p =>
    obtain ⟨r, hr, h⟩ := Option.bind_eq_some_iff.mp h
    cases h
    exact ⟨hi.set_rsm (reader_stop (hi.servers p).reader hr), hi.handed⟩
  | restart p =>
    cases h
    exact ⟨hi.set_server (boot_inv round p _ (hi.servers p).persisted), hi.handed⟩

end invariant

section theorems
variable {machine : StateMachine R V B St} {agreed : ℕ → Command n R} {maxraftstate : ℤ}
  {w : World n R V B St} {tr : List (Transition (World n R V B St) (Label n R))}

/-- Every server's state is the fold up to its `lastApplied`, and everything handed to
    `Snapshot` is the fold up to its index. -/
def StatesAgree (machine : StateMachine R V B St) (agreed : ℕ → Command n R)
    (w : World n R V B St) : Prop :=
  (∀ p, StateInv machine agreed (w.servers p).rsm) ∧ ∀ h ∈ w.handed, Encodes machine agreed h

theorem replicated_state (round : ∀ st, machine.restore (machine.snapshot st) = st)
    (run : Run (replicas n machine maxraftstate agreed) tr w) : StatesAgree machine agreed w := by
  have hi : Inv machine agreed w := by
    refine run.invariant (I := Inv machine agreed) ?_ fun _ _ _ hi h => inv_exec round hi h
    rintro _ rfl
    refine ⟨fun p => boot_inv round p 0 ?_, ?_⟩
    · intro h hp
      cases hp
    · intro h hm
      cases hm
  exact ⟨fun p => (hi.servers p).reader.state, hi.handed⟩

def counter : StateMachine ℕ ℕ ℕ ℕ :=
  ⟨0, fun total req => (total + req, total + req), id, id⟩

/-- Of five servers, server 0 applies two commands and snapshots. Server 1 applies one, gets
    that snapshot, restarts from it and applies the third command; then the snapshot and the
    third command come again. -/
def catchUp : Option (List (Transition (World 5 ℕ ℕ ℕ ℕ) (Label 5 ℕ)) × World 5 ℕ ℕ ℕ ℕ) :=
  replay (World.exec counter 1 (fun i => .op ⟨0, i, i * 10⟩)) (initial counter) []
    [.deliver 0, .read 0, .finish 0, .maybeSnapshot 0 0 true, .deliver 0, .read 0, .finish 0,
      .maybeSnapshot 0 5 true, .deliver 1, .read 1, .finish 1, .maybeSnapshot 1 0 true,
      .deliverSnapshot 1 0 2, .read 1, .install 1 0, .restart 1, .deliver 1, .read 1, .finish 1,
      .maybeSnapshot 1 0 true, .deliverSnapshot 1 0 2, .read 1, .deliver 1, .read 1]

theorem replicated_state_catchUp : ∃ r, catchUp = some r ∧
    ((r.2.servers 0).rsm.sm, (r.2.servers 1).rsm.sm, (r.2.servers 1).rsm.lastApplied) =
      (30, 60, 3) ∧
    StatesAgree counter (fun i => .op ⟨0, i, i * 10⟩) r.2 := by
  have hsome : catchUp.map (fun r => ((r.2.servers 0).rsm.sm, (r.2.servers 1).rsm.sm,
      (r.2.servers 1).rsm.lastApplied)) = some (30, 60, 3) := by decide +kernel
  obtain ⟨r, hr, hval⟩ := Option.map_eq_some_iff.mp hsome
  have hrun : Run (replicas 5 counter 1 fun i => .op ⟨0, i, i * 10⟩) r.1 r.2 :=
    Run.replay (fun _ _ _ h => h) _ (.start rfl) hr
  exact ⟨r, hr, hval, replicated_state (fun _ => rfl) hrun⟩

end theorems
end DistributedLabs.RsmFold
