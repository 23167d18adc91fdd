import DistributedLabs.Runs
import Mathlib.Data.List.Basic
import Mathlib.Data.Int.Notation

set_option autoImplicit false

/-!
# The MapReduce coordinator

The task table of `mr/coordinator.go` and its three entry points. Times are in
nanoseconds. A step that would index a slice out of range is `none`.
-/
namespace DistributedLabs.MrCoordinator

inductive TaskType where
  | mapTask | reduceTask | waitTask | exitTask
deriving DecidableEq

inductive Status where
  | created | inProgress | done
deriving DecidableEq

inductive Phase where
  | map | reduce | done
deriving DecidableEq

structure TaskState where
  id : ℕ
  file : String
  status : Status
  startAt : ℤ
  version : ℕ

structure Coordinator where
  nReduce : ℕ
  nMap : ℕ
  mapTasks : List TaskState
  reduceTasks : List TaskState
  phase : Phase

structure Task where
  type : TaskType
  taskId : ℕ
  nReduce : ℕ
  nMap : ℕ
  file : String

structure RequestTaskReply where
  task : Task
  version : ℕ

/-- The arguments of `ReportDone`: the triple that names one attempt at a task. -/
structure Attempt where
  taskType : TaskType
  taskId : ℕ
  version : ℕ
deriving DecidableEq

def bareReply (type : TaskType) : RequestTaskReply := ⟨⟨type, 0, 0, 0, ""⟩, 0⟩

/-- The loop over a table that gives out its first task with status 0. -/
def handOut (now : ℤ) : List TaskState → Option (TaskState × List TaskState)
  | [] => none
  | t :: ts =>
    if t.status = .created then some (t, { t with status := .inProgress, startAt := now } :: ts)
    else (handOut now ts).map fun r => (r.1, t :: r.2)

def allDone (ts : List TaskState) : Bool := ts.all fun t => decide (t.status = .done)

def newReduceTasks (nReduce : ℕ) : List TaskState :=
  (List.range nReduce).map fun i => ⟨i, "", .created, 0, 0⟩

def requestTask (now : ℤ) (c : Coordinator) : Option (Coordinator × RequestTaskReply) :=
  match c.phase with
  | .map =>
    match handOut now c.mapTasks with
    | some (t, ts) => some ({ c with mapTasks := ts },
        ⟨⟨.mapTask, t.id, c.nReduce, c.nMap, t.file⟩, t.version⟩)
    | none =>
      if allDone c.mapTasks then
        match c.reduceTasks ++ newReduceTasks c.nReduce with
        | [] => none
        | t :: ts => some ({ c with
            phase := .reduce
            reduceTasks := { t with status := .inProgress, startAt := now } :: ts },
            ⟨⟨.reduceTask, 0, c.nReduce, c.nMap, ""⟩, t.version⟩)
      else some (c, bareReply .waitTask)
  | .reduce =>
    match handOut now c.reduceTasks with
    | some (t, ts) => some ({ c with reduceTasks := ts },
        ⟨⟨.reduceTask, t.id, c.nReduce, c.nMap, ""⟩, t.version⟩)
    | none =>
      if allDone c.reduceTasks then some ({ c with phase := .done }, bareReply .exitTask)
      else some (c, bareReply .waitTask)
  | .done => some (c, bareReply .exitTask)

def complete (a : Attempt) (ts : List TaskState) : Option (List TaskState) :=
  (ts[a.taskId]?).map fun t =>
    if t.version = a.version ∧ t.status = .inProgress then
      ts.set a.taskId { t with status := .done }
    else ts

def reportDone (a : Attempt) (c : Coordinator) : Option Coordinator :=
  if a.taskType = .mapTask then
    (complete a c.mapTasks).map fun ts => { c with mapTasks := ts }
  else (complete a c.reduceTasks).map fun ts => { c with reduceTasks := ts }

/-- One round of `timeoutWatcher` over a table: ten seconds are allowed. -/
def expire (now : ℤ) (ts : List TaskState) : List TaskState :=
  ts.map fun t =>
    if t.status = .inProgress ∧ 10 * 1000000000 < now - t.startAt then
      { t with status := .created, version := t.version + 1 }
    else t

def timeoutWatcher (now : ℤ) (c : Coordinator) : Coordinator :=
  match c.phase with
  | .map => { c with mapTasks := expire now c.mapTasks }
  | .reduce => { c with reduceTasks := expire now c.reduceTasks }
  | .done => c

def isDone (c : Coordinator) : Bool := decide (c.phase = .done)

def makeCoordinator (files : List String) (nReduce : ℕ) : Coordinator where
  nReduce := nReduce
  nMap := files.length
  mapTasks := files.zipIdx.map fun f => ⟨f.2, f.1, .created, 0, 0⟩
  reduceTasks := []
  phase := .map

section tables
variable {now : ℤ} {ts ts' : List TaskState} {t : TaskState}

theorem handOut_some (h : handOut now ts = some (t, ts')) : ∃ i, ts[i]? = some t ∧
    t.status = .created ∧ ts' = ts.set i { t with status := .inProgress, startAt := now } := by
  induction ts generalizing ts' with
  | nil => cases h
  | cons x xs ih =>
    unfold handOut at h
    split_ifs at h with hx
    · cases h
      exact ⟨0, rfl, hx, rfl⟩
    · obtain ⟨⟨y, ys⟩, hy, h⟩ := Option.map_eq_some_iff.mp h
      cases h
      obtain ⟨i, hi, hc, hset⟩ := ih hy
      exact ⟨i + 1, hi, hc, by rw [hset]; rfl⟩

theorem allDone_iff : allDone ts = true ↔ ∀ t ∈ ts, t.status = .done := by
  simp [allDone]

theorem each_set {P : ℕ → TaskState → Prop} {i : ℕ} {t' : TaskState}
    (h : ∀ (j : ℕ) (x : TaskState), ts[j]? = some x → P j x) (hi : ts[i]? = some t)
    (hp : P i t → P i t') (j : ℕ) (x : TaskState) (hx : (ts.set i t')[j]? = some x) : P j x := by
  by_cases hj : i = j
  · subst hj
    rw [List.getElem?_set_self (List.getElem?_eq_some_iff.mp hi).choose] at hx
    cases hx
    exact hp (h i t hi)
  · rw [List.getElem?_set_ne hj] at hx
    exact h j x hx

def Numbered (ts : List TaskState) : Prop := ∀ (i : ℕ) (t : TaskState), ts[i]? = some t → t.id = i

theorem Numbered.set {i : ℕ} (h : Numbered ts) (hi : ts[i]? = some t) {t' : TaskState}
    (hid : t'.id = t.id) : Numbered (ts.set i t') :=
  each_set h hi hid.trans

theorem Numbered.expire (h : Numbered ts) (now : ℤ) : Numbered (expire now ts) := by
  intro i x hx
  unfold MrCoordinator.expire at hx
  rw [List.getElem?_map] at hx
  obtain ⟨y, hy, rfl⟩ := Option.map_eq_some_iff.mp hx
  split_ifs <;> exact h i y hy

theorem numbered_new (nReduce : ℕ) : Numbered (newReduceTasks nReduce) := by
  intro i t ht
  unfold newReduceTasks at ht
  rw [List.getElem?_map] at ht
  obtain ⟨j, hj, rfl⟩ := Option.map_eq_some_iff.mp ht
  rw [List.getElem?_range (by simpa using (List.getElem?_eq_some_iff.mp hj).choose)] at hj
  exact (Option.some.inj hj).symm

end tables

section specs
variable {now : ℤ} {c c' : Coordinator} {r : RequestTaskReply}

inductive Requested (now : ℤ) (c : Coordinator) : Coordinator → RequestTaskReply → Prop where
  | mapTask (i : ℕ) (t : TaskState) (phase : c.phase = .map) (ht : c.mapTasks[i]? = some t)
      (free : t.status = .created) : Requested now c
        { c with mapTasks := c.mapTasks.set i { t with status := .inProgress, startAt := now } }
        ⟨⟨.mapTask, t.id, c.nReduce, c.nMap, t.file⟩, t.version⟩
  | switch (t : TaskState) (ts : List TaskState) (phase : c.phase = .map)
      (done : ∀ t ∈ c.mapTasks, t.status = .done)
      (ht : c.reduceTasks ++ newReduceTasks c.nReduce = t :: ts) : Requested now c
        { c with
          phase := .reduce
          reduceTasks := { t with status := .inProgress, startAt := now } :: ts }
        ⟨⟨.reduceTask, 0, c.nReduce, c.nMap, ""⟩, t.version⟩
  | reduceTask (i : ℕ) (t : TaskState) (phase : c.phase = .reduce) (ht : c.reduceTasks[i]? = some t)
      (free : t.status = .created) : Requested now c
        { c with reduceTasks := c.reduceTasks.set i { t with status := .inProgress, startAt := now } }
        ⟨⟨.reduceTask, t.id, c.nReduce, c.nMap, ""⟩, t.version⟩
  | finish (phase : c.phase = .reduce) (done : ∀ t ∈ c.reduceTasks, t.status = .done) :
      Requested now c { c with phase := .done } (bareReply .exitTask)
  | wait : Requested now c c (bareReply .waitTask)
  | exit (phase : c.phase = .done) : Requested now c c (bareReply .exitTask)

theorem requestTask_spec (h : requestTask now c = some (c', r)) : Requested now c c' r := by
  unfold requestTask at h
  split at h
  case h_1 hp =>
    split at h
    case h_1 t ts ho =>
      cases h
      obtain ⟨i, hi, hc, rfl⟩ := handOut_some ho
      exact .mapTask i t hp hi hc
    case h_2 =>
      split_ifs at h with hd
      · split at h
        case h_1 => cases h
        case h_2 t ts ht =>
          cases h
          exact .switch t ts hp (allDone_iff.mp hd) ht
      · cases h
        exact .wait
  case h_2 hp =>
    split at h
    case h_1 t ts ho =>
      cases h
      obtain ⟨i, hi, hc, rfl⟩ := handOut_some ho
      exact .reduceTask i t hp hi hc
    case h_2 =>
      split_ifs at h with hd
      · cases h
        exact .finish hp (allDone_iff.mp hd)
      · cases h
        exact .wait
  case h_3 hp =>
    cases h
    exact .exit hp

def Coordinator.tasks (c : Coordinator) : TaskType → List TaskState
  | .mapTask => c.mapTasks
  | .reduceTask => c.reduceTasks
  | _ => []

/-- The shape of the tables: one map task for each file, no reduce tasks before all map
    tasks are done and then all of them, and the end only when those are done. -/
structure Table (files : List String) (nReduce : ℕ) (c : Coordinator) : Prop where
  reduceCount : c.nReduce = nReduce
  mapCount : c.nMap = files.length
  maps : c.mapTasks.length = files.length
  mapIds : Numbered c.mapTasks
  mapFiles : ∀ (i : ℕ) (t : TaskState), c.mapTasks[i]? = some t → files[i]? = some t.file
  before : c.phase = .map → c.reduceTasks = []
  reduces : c.phase ≠ .map → c.reduceTasks.length = nReduce
  reduceIds : Numbered c.reduceTasks
  mapsDone : c.phase ≠ .map → ∀ t ∈ c.mapTasks, t.status = .done
  finished : c.phase = .done → ∀ t ∈ c.reduceTasks, t.status = .done

variable {files : List String} {nReduce : ℕ}

theorem table_make : Table files nReduce (makeCoordinator files nReduce) where
  reduceCount := rfl
  mapCount := rfl
  maps := by simp [makeCoordinator]
  mapIds i t ht := by
    simp only [makeCoordinator, List.getElem?_map] at ht
    obtain ⟨⟨f, j⟩, hj, rfl⟩ := Option.map_eq_some_iff.mp ht
    rw [List.getElem?_zipIdx] at hj
    obtain ⟨f', _, hf⟩ := Option.map_eq_some_iff.mp hj
    cases hf
    simp
  mapFiles i t ht := by
    simp only [makeCoordinator, List.getElem?_map] at ht
    obtain ⟨⟨f, j⟩, hj, rfl⟩ := Option.map_eq_some_iff.mp ht
    rw [List.getElem?_zipIdx] at hj
    obtain ⟨f', hf', hf⟩ := Option.map_eq_some_iff.mp hj
    cases hf
    exact hf'
  before _ := rfl
  reduces h := absurd rfl h
  reduceIds := nofun
  mapsDone h := absurd rfl h
  finished h := by cases h

theorem Table.requestTask (hc : Table files nReduce c) (h : requestTask now c = some (c', r)) :
    Table files nReduce c' := by
  cases requestTask_spec h with
  | mapTask i t phase ht free =>
    have hne : c.phase = .map := phase
    exact { hc with
      maps := by simpa using hc.maps
      mapIds := hc.mapIds.set ht rfl
      mapFiles := each_set hc.mapFiles ht id
      mapsDone := fun h => absurd hne h }
  | switch t ts phase done ht =>
    have hnil := hc.before phase
    rw [hnil, List.nil_append] at ht
    have hlen := congrArg List.length ht
    have hids : Numbered (t :: ts) := by
      rw [← ht]
      exact numbered_new _
    exact { hc with
      before := fun h => by cases h
      reduces := fun _ => by
        simp only [newReduceTasks, List.length_map, List.length_range, List.length_cons] at hlen
        rw [← hc.reduceCount]
        simpa using hlen.symm
      reduceIds := by
        intro i x hx
        cases i with
        | zero =>
          cases hx
          exact hids 0 t rfl
        | succ i => exact hids (i + 1) x hx
      mapsDone := fun _ => done
      finished := fun h => by cases h }
  | reduceTask i t phase ht free =>
    exact { hc with
      before := fun h => by
        have h : c.phase = .map := h
        rw [phase] at h
        cases h
      reduces := fun h => by simpa using hc.reduces h
      reduceIds := hc.reduceIds.set ht rfl
      finished := fun h => by
        have h : c.phase = .done := h
        rw [phase] at h
        cases h }
  | finish phase done =>
    have hne : c.phase ≠ .map := by simp [phase]
    exact { hc with
      before := fun h => by cases h
      reduces := fun _ => hc.reduces hne
      mapsDone := fun _ => hc.mapsDone hne
      finished := fun _ => done }
  | wait => exact hc
  | exit => exact hc

/-- What `ReportDone` does to the table of the attempt. -/
theorem complete_spec {a : Attempt} {ts ts' : List TaskState} (h : complete a ts = some ts') :
    ∃ t, ts[a.taskId]? = some t ∧
      ((t.version = a.version ∧ t.status = .inProgress ∧
        ts' = ts.set a.taskId { t with status := .done }) ∨
      (¬ (t.version = a.version ∧ t.status = .inProgress) ∧ ts' = ts)) := by
  obtain ⟨t, ht, rfl⟩ := Option.map_eq_some_iff.mp h
  refine ⟨t, ht, ?_⟩
  split_ifs with hok
  · exact .inl ⟨hok.1, hok.2, rfl⟩
  · exact .inr ⟨hok, rfl⟩

theorem complete_done {a : Attempt} {ts ts' : List TaskState} (h : complete a ts = some ts')
    (hd : ∀ t ∈ ts, t.status = .done) : ∀ t ∈ ts', t.status = .done := by
  obtain ⟨t, ht, ⟨_, _, rfl⟩ | ⟨_, rfl⟩⟩ := complete_spec h
  · intro x hx
    rcases List.mem_or_eq_of_mem_set hx with hx | rfl
    · exact hd x hx
    · rfl
  · exact hd

theorem Table.reportDone {a : Attempt} (hc : Table files nReduce c) (h : reportDone a c = some c') :
    Table files nReduce c' := by
  unfold MrCoordinator.reportDone at h
  split_ifs at h
  · obtain ⟨ts, hts, rfl⟩ := Option.map_eq_some_iff.mp h
    have hdone := fun hne => complete_done hts (hc.mapsDone hne)
    obtain ⟨t, ht, ⟨_, _, rfl⟩ | ⟨_, rfl⟩⟩ := complete_spec hts
    · exact { hc with
        maps := by simpa using hc.maps
        mapIds := hc.mapIds.set ht rfl
        mapFiles := each_set hc.mapFiles ht id
        mapsDone := hdone }
    · exact hc
  · obtain ⟨ts, hts, rfl⟩ := Option.map_eq_some_iff.mp h
    have hdone := fun hp => complete_done hts (hc.finished hp)
    obtain ⟨t, ht, ⟨_, _, rfl⟩ | ⟨_, rfl⟩⟩ := complete_spec hts
    · exact { hc with
        before := fun hp => by
          have hnil := hc.before hp
          rw [hnil] at ht
          cases ht
        reduces := fun hne => by simpa using hc.reduces hne
        reduceIds := hc.reduceIds.set ht rfl
        finished := hdone }
    · exact hc

theorem Table.timeoutWatcher (hc : Table files nReduce c) (now : ℤ) :
    Table files nReduce (timeoutWatcher now c) := by
  unfold MrCoordinator.timeoutWatcher
  split
  case h_1 hp =>
    exact { hc with
      maps := by simpa [expire] using hc.maps
      mapIds := hc.mapIds.expire now
      mapFiles := fun i t ht => by
        simp only [expire, List.getElem?_map] at ht
        obtain ⟨x, hx, rfl⟩ := Option.map_eq_some_iff.mp ht
        split_ifs <;> exact hc.mapFiles i x hx
      mapsDone := fun hne => absurd hp hne }
  case h_2 hp =>
    exact { hc with
      before := fun h => by
        have h : c.phase = .map := h
        rw [hp] at h
        cases h
      reduces := fun hne => by simpa [expire] using hc.reduces hne
      reduceIds := hc.reduceIds.expire now
      finished := fun h => by
        have h : c.phase = .done := h
        rw [hp] at h
        cases h }
  case h_3 => exact hc

/-- With a reduce task to give out, no request ends in a panic. -/
theorem Table.requestTask_some (hc : Table files nReduce c) (hpos : 1 ≤ nReduce) (now : ℤ) :
    (MrCoordinator.requestTask now c).isSome := by
  unfold MrCoordinator.requestTask
  split
  case h_1 hp =>
    split
    case h_1 => rfl
    case h_2 =>
      split_ifs
      · split
        case h_1 hnil =>
          have hlen := congrArg List.length hnil
          simp only [newReduceTasks, List.length_append, List.length_map, List.length_range,
            hc.reduceCount, List.length_nil] at hlen
          omega
        case h_2 => rfl
      · rfl
  case h_2 =>
    split
    case h_1 => rfl
    case h_2 => split_ifs <;> rfl
  case h_3 => rfl

end specs
end DistributedLabs.MrCoordinator
