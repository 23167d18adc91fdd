import DistributedLabs.MrFencing
import DistributedLabs.MrWorker

set_option autoImplicit false

/-!
# A MapReduce job

Any number of workers serve one coordinator over a shared file system. A worker can stop
at any point; a file appears, or is replaced, all at once; a report can be delivered late,
again or never. A map task that is done has published all its files, and whoever
publishes one of them publishes the same pairs, so that a reduce task reads the same pairs
whenever it is run.
-/
namespace DistributedLabs.MrJob
open Runs Grouping MrCoordinator MrWorker
open MrFencing (statusOf Effect)

/-- The input of a job: `mapOf` is the multiset of pairs that every run of `mapf` on a
    file returns. -/
structure Job where
  files : List String
  nReduce : ℕ
  mapOf : String → Multiset KeyValue
  reducef : String → List String → String
  nReduce_pos : 1 ≤ nReduce
  reducef_perm : ∀ k vs vs', vs.Perm vs' → reducef k vs = reducef k vs'

inductive Content where
  | records (kvs : List KeyValue)
  | text (s : String)
deriving DecidableEq

/-- What `doReduce` takes from an intermediate file. A file it cannot open is skipped. -/
def decoded : Option Content → List KeyValue
  | some (.records kvs) => kvs
  | _ => []

/-- Where a worker is: before its next request, in `doMap` before and after `mapf` has
    returned, in `doReduce` while it reads and before it renames, or about to report. -/
inductive Worker where
  | idle
  | mapping (task : Task) (version : ℕ)
  | publishing (task : Task) (version : ℕ) (files : List (List KeyValue)) (i : ℕ)
  | collecting (task : Task) (version : ℕ) (i : ℕ) (kvs : List KeyValue)
  | writing (task : Task) (version : ℕ) (text : String)
  | reporting (a : Attempt)
  | exited

def Worker.next (r : RequestTaskReply) : Worker :=
  match r.task.type with
  | .mapTask => .mapping r.task r.version
  | .reduceTask => .collecting r.task r.version 0 []
  | .waitTask => .idle
  | .exitTask => .exited

structure World (W : Type) where
  c : Coordinator
  workers : W → Worker
  fs : String → Option Content
  -- the calls of `ReportDone` that were ever made
  reports : List Attempt

inductive Label (W : Type) where
  | requestTask (k : W) (now : ℤ)
  | mapf (k : W) (kvs : List KeyValue)
  | publish (k : W)
  | collect (k : W)
  | reduce (k : W) (sorted : List KeyValue)
  | rename (k : W)
  | report (k : W)
  | deliver (a : Attempt)
  | tick (now : ℤ)
  | crash (k : W)

section exec
variable {W : Type} [DecidableEq W]

def World.setWorker (w : World W) (k : W) (s : Worker) : World W :=
  { w with workers := Function.update w.workers k s }

def World.write (w : World W) (name : String) (content : Content) : World W :=
  { w with fs := Function.update w.fs name (some content) }

/-- `mapf` and the sort choose among the results they may give. -/
def exec (job : Job) (w : World W) : Label W → Option (World W)
  | .requestTask k now =>
    match w.workers k with
    | .idle => (requestTask now w.c).map fun r => ({ w with c := r.1 }).setWorker k (.next r.2)
    | _ => none
  | .mapf k kvs =>
    match w.workers k with
    | .mapping task version =>
      if (kvs : Multiset KeyValue) = job.mapOf task.file then
        some (w.setWorker k (.publishing task version (mapFiles task.nReduce kvs) 0))
      else none
    | _ => none
  | .publish k =>
    match w.workers k with
    | .publishing task version files i =>
      match files[i]? with
      | some kvs => some ((w.write (intermediateName task.taskId i) (.records kvs)).setWorker k
          (.publishing task version files (i + 1)))
      | none => some (w.setWorker k (.reporting ⟨.mapTask, task.taskId, version⟩))
    | _ => none
  | .collect k =>
    match w.workers k with
    | .collecting task version i kvs =>
      if i < task.nMap then
        some (w.setWorker k (.collecting task version (i + 1)
          (kvs ++ decoded (w.fs (intermediateName i task.taskId)))))
      else none
    | _ => none
  | .reduce k sorted =>
    match w.workers k with
    | .collecting task version i kvs =>
      if task.nMap ≤ i ∧ SortOf kvs sorted then
        some (w.setWorker k (.writing task version (reduceText job.reducef sorted)))
      else none
    | _ => none
  | .rename k =>
    match w.workers k with
    | .writing task version text =>
      some ((w.write (outputName task.taskId) (.text text)).setWorker k
        (.reporting ⟨.reduceTask, task.taskId, version⟩))
    | _ => none
  | .report k =>
    match w.workers k with
    | .reporting a => some ({ w with reports := a :: w.reports }.setWorker k .idle)
    | _ => none
  | .deliver a =>
    if a ∈ w.reports then (reportDone a w.c).map fun c => { w with c := c } else none
  | .tick now => some { w with c := timeoutWatcher now w.c }
  | .crash k => some (w.setWorker k .exited)

/-- The directory may hold anything at the start. -/
def cluster (W : Type) [DecidableEq W] (job : Job) : Machine (World W) (Label W) where
  init w := w.c = makeCoordinator job.files job.nReduce ∧ w.workers = (fun _ => .idle) ∧
    w.reports = []
  step w l v := exec job w l = some v

end exec

def Sequential (job : Job) (text : String) : Prop :=
  ∃ runs : List (List KeyValue), List.Forall₂
      (fun f (kvs : List KeyValue) => (kvs : Multiset KeyValue) = job.mapOf f) job.files runs ∧
    ∃ sorted, SortOf runs.flatten sorted ∧ text = sequentialText job.reducef sorted

def outputLines (job : Job) (fs : String → Option Content) : Multiset String :=
  ∑ r ∈ Finset.range job.nReduce, match fs (outputName r) with
    | some (.text s) => linesOf s
    | _ => 0

section files
variable (job : Job) (fs : String → Option Content)

def share (n r : ℕ) : Multiset KeyValue :=
  (((job.files.take n).map job.mapOf).sum).filter fun kv => bucketOf job.nReduce kv.key = r

def Mapped (i r : ℕ) : Prop := ∃ f kvs, job.files[i]? = some f ∧
  fs (intermediateName i r) = some (.records kvs) ∧
  (kvs : Multiset KeyValue) = (job.mapOf f).filter fun kv => bucketOf job.nReduce kv.key = r

def ReduceOf (r : ℕ) (text : String) : Prop := ∃ sorted : List KeyValue,
  Sorted KeyValue.key sorted ∧ (sorted : Multiset KeyValue) = share job job.files.length r ∧
    text = reduceText job.reducef sorted

def Reduced (r : ℕ) : Prop := ∃ text, fs (outputName r) = some (.text text) ∧ ReduceOf job r text

def Finished : TaskType → ℕ → Prop
  | .mapTask, i => ∀ r < job.nReduce, Mapped job fs i r
  | .reduceTask, r => Reduced job fs r
  | _, _ => False

def Worker.Ok : Worker → Prop
  | .idle => True
  | .mapping task _ => task.nReduce = job.nReduce ∧ job.files[task.taskId]? = some task.file
  | .publishing task _ files i => job.files[task.taskId]? = some task.file ∧
      (∃ kvs : List KeyValue, (kvs : Multiset KeyValue) = job.mapOf task.file ∧
        files = mapFiles job.nReduce kvs) ∧
      ∀ r < i, r < job.nReduce → Mapped job fs task.taskId r
  | .collecting task _ i kvs => task.nMap = job.files.length ∧ task.taskId < job.nReduce ∧
      i ≤ job.files.length ∧ (∀ j < job.files.length, Finished job fs .mapTask j) ∧
      (kvs : Multiset KeyValue) = share job i task.taskId
  | .writing task _ text => ReduceOf job task.taskId text
  | .reporting a => Finished job fs a.taskType a.taskId
  | .exited => True

end files

/-- Files are replaced only by files that are as good. -/
structure Keeps (job : Job) (fs fs' : String → Option Content) : Prop where
  mapped : ∀ i r, Mapped job fs i r → Mapped job fs' i r
  reduced : ∀ r, Reduced job fs r → Reduced job fs' r

structure Inv {W : Type} (job : Job) (w : World W) : Prop where
  table : Table job.files job.nReduce w.c
  workers : ∀ k, (w.workers k).Ok job w.fs
  reports : ∀ a ∈ w.reports, Finished job w.fs a.taskType a.taskId
  status : ∀ k i, statusOf w.c k i = some .done → Finished job w.fs k i

section keeps
variable {job : Job} {fs fs' : String → Option Content}

theorem Keeps.refl : Keeps job fs fs := ⟨fun _ _ h => h, fun _ h => h⟩

theorem Keeps.trans {fs'' : String → Option Content} (h : Keeps job fs fs')
    (h' : Keeps job fs' fs'') : Keeps job fs fs'' :=
  ⟨fun i r hm => h'.mapped i r (h.mapped i r hm), fun r hr => h'.reduced r (h.reduced r hr)⟩

theorem Keeps.finished (h : Keeps job fs fs') {k : TaskType} {i : ℕ}
    (hf : Finished job fs k i) : Finished job fs' k i := by
  cases k with
  | mapTask => exact fun r hr => h.mapped i r (hf r hr)
  | reduceTask => exact h.reduced i hf
  | waitTask => exact hf
  | exitTask => exact hf

theorem Keeps.ok (h : Keeps job fs fs') {s : Worker} (hs : s.Ok job fs) : s.Ok job fs' := by
  cases s with
  | idle => exact hs
  | mapping task version => exact hs
  | publishing task version files i =>
    exact ⟨hs.1, hs.2.1, fun r hr hn => h.mapped _ _ (hs.2.2 r hr hn)⟩
  | collecting task version i kvs =>
    obtain ⟨hmap, hid, hle, hdone, hkvs⟩ := hs
    exact ⟨hmap, hid, hle, fun j hj => h.finished (hdone j hj), hkvs⟩
  | writing task version text => exact hs
  | reporting a => exact h.finished hs
  | exited => exact hs

theorem keeps_mapped {i r : ℕ} {f : String} {kvs : List KeyValue} (hf : job.files[i]? = some f)
    (hkvs : (kvs : Multiset KeyValue) =
      (job.mapOf f).filter fun kv => bucketOf job.nReduce kv.key = r) :
    let fs' := Function.update fs (intermediateName i r) (some (.records kvs))
    Keeps job fs fs' ∧ Mapped job fs' i r := by
  intro fs'
  have hself : Mapped job fs' i r := ⟨f, kvs, hf, Function.update_self .., hkvs⟩
  refine ⟨⟨fun j s hm => ?_, fun s hr => ?_⟩, hself⟩
  · by_cases heq : intermediateName j s = intermediateName i r
    · obtain ⟨rfl, rfl⟩ := intermediateName_inj heq
      exact hself
    · obtain ⟨g, kvs', hg, hfile, hk⟩ := hm
      exact ⟨g, kvs', hg, (Function.update_of_ne heq _ _).trans hfile, hk⟩
  · obtain ⟨text, hfile, ht⟩ := hr
    have hne := (intermediateName_ne_outputName i r s).symm
    exact ⟨text, (Function.update_of_ne hne _ _).trans hfile, ht⟩

theorem keeps_reduced {r : ℕ} {text : String} (ht : ReduceOf job r text) :
    let fs' := Function.update fs (outputName r) (some (.text text))
    Keeps job fs fs' ∧ Reduced job fs' r := by
  intro fs'
  have hself : Reduced job fs' r := ⟨text, Function.update_self .., ht⟩
  refine ⟨⟨fun i s hm => ?_, fun s hr => ?_⟩, hself⟩
  · obtain ⟨g, kvs', hg, hfile, hk⟩ := hm
    have hne := intermediateName_ne_outputName i s r
    exact ⟨g, kvs', hg, (Function.update_of_ne hne _ _).trans hfile, hk⟩
  · by_cases heq : outputName s = outputName r
    · rw [outputName_inj heq]
      exact hself
    · obtain ⟨text', hfile, ht'⟩ := hr
      exact ⟨text', (Function.update_of_ne heq _ _).trans hfile, ht'⟩

end keeps

section coordinator
variable {W : Type} {job : Job} {w : World W}

theorem Inv.coordinator (hi : Inv job w) {c : Coordinator} (table : Table job.files job.nReduce c)
    (hdone : ∀ k i, statusOf c k i = some .done →
      statusOf w.c k i = some .done ∨ Finished job w.fs k i) : Inv job { w with c := c } :=
  { hi with
    table := table
    status := fun k i hd => (hdone k i hd).elim (hi.status k i) id }

theorem maps_finished (hi : Inv job w) (hdone : ∀ t ∈ w.c.mapTasks, t.status = .done) :
    ∀ j < job.files.length, Finished job w.fs .mapTask j := by
  intro j hj
  rw [← hi.table.maps] at hj
  exact hi.status .mapTask j (MrFencing.status_of_all hj hdone)

/-- What a worker is told to do is a task of the job, and a reduce task only when all the
    files it reads are there. -/
theorem next_ok (hi : Inv job w) {now : ℤ} {c : Coordinator} {r : RequestTaskReply}
    (h : requestTask now w.c = some (c, r)) : (Worker.next r).Ok job w.fs := by
  have collecting : ∀ i version, i < job.nReduce → (∀ t ∈ w.c.mapTasks, t.status = .done) →
      (Worker.collecting ⟨.reduceTask, i, w.c.nReduce, w.c.nMap, ""⟩ version 0 []).Ok job w.fs := by
    intro i version hlt hdone
    exact ⟨hi.table.mapCount, hlt, Nat.zero_le _, maps_finished hi hdone, by simp [share]⟩
  cases requestTask_spec h with
  | mapTask i t phase ht free =>
    refine ⟨hi.table.reduceCount, ?_⟩
    show job.files[t.id]? = some t.file
    rw [hi.table.mapIds i t ht]
    exact hi.table.mapFiles i t ht
  | switch t ts phase done ht => exact collecting 0 t.version job.nReduce_pos done
  | reduceTask i t phase ht free =>
    have hne : w.c.phase ≠ .map := by simp [phase]
    have hlt : t.id < job.nReduce := by
      rw [hi.table.reduceIds i t ht, ← hi.table.reduces hne]
      exact (List.getElem?_eq_some_iff.mp ht).choose
    exact collecting t.id t.version hlt (hi.table.mapsDone hne)
  | finish => trivial
  | wait => trivial
  | exit => trivial

theorem request_inv (hi : Inv job w) {now : ℤ} {c : Coordinator} {r : RequestTaskReply}
    (h : requestTask now w.c = some (c, r)) : Inv job { w with c := c } := by
  refine hi.coordinator (hi.table.requestTask h) fun k i hd => .inl ?_
  have heff : Effect ⟨w.c, []⟩ ⟨c, (MrFencing.attemptOf r).toList⟩ (.requestTask now) :=
    MrFencing.effect_request hi.table (by simp [MrFencing.exec, h])
  rcases heff.done_of hd with hd | ⟨a, ha, _⟩
  · exact hd
  · cases ha

theorem tick_inv (hi : Inv job w) (now : ℤ) : Inv job { w with c := timeoutWatcher now w.c } := by
  refine hi.coordinator (hi.table.timeoutWatcher now) fun k i hd => .inl ?_
  have heff : Effect ⟨w.c, []⟩ ⟨timeoutWatcher now w.c, []⟩ (.tick now) :=
    MrFencing.effect_tick rfl
  rcases heff.done_of hd with hd | ⟨a, ha, _⟩
  · exact hd
  · cases ha

theorem deliver_inv (hi : Inv job w) {a : Attempt} (ha : a ∈ w.reports) {c : Coordinator}
    (h : reportDone a w.c = some c) : Inv job { w with c := c } := by
  have hfin := hi.reports a ha
  have htype : a.taskType = .mapTask ∨ a.taskType = .reduceTask := by
    cases hk : a.taskType with
    | mapTask => exact .inl rfl
    | reduceTask => exact .inr rfl
    | waitTask =>
      rw [hk] at hfin
      exact hfin.elim
    | exitTask =>
      rw [hk] at hfin
      exact hfin.elim
  refine hi.coordinator (hi.table.reportDone h) fun k i hd => ?_
  have heff : Effect ⟨w.c, [a]⟩ ⟨c, [a]⟩ (.reportDone a) :=
    MrFencing.effect_report (by simpa using htype) (by simp [MrFencing.exec, h])
  rcases heff.done_of hd with hd | ⟨b, hb, rfl, rfl⟩
  · exact .inl hd
  · cases hb
    exact .inr hfin

end coordinator

section workers
variable {job : Job}

/-- A file that `doMap` publishes holds what `mapf` gives for it. -/
theorem published {f : String} {kvs file : List KeyValue} {r : ℕ}
    (hkvs : (kvs : Multiset KeyValue) = job.mapOf f)
    (hfile : (mapFiles job.nReduce kvs)[r]? = some file) : r < job.nReduce ∧
      (file : Multiset KeyValue) =
        (job.mapOf f).filter fun kv => bucketOf job.nReduce kv.key = r := by
  rw [mapFiles_get] at hfile
  split_ifs at hfile with hr
  cases hfile
  exact ⟨hr, by rw [← hkvs, Multiset.filter_coe]⟩

theorem publish_step {fs : String → Option Content} {task : Task} {version i : ℕ}
    {files : List (List KeyValue)} {file : List KeyValue}
    (h : (Worker.publishing task version files i).Ok job fs) (hfile : files[i]? = some file) :
    let fs' := Function.update fs (intermediateName task.taskId i) (some (.records file))
    Keeps job fs fs' ∧ (Worker.publishing task version files (i + 1)).Ok job fs' := by
  intro fs'
  obtain ⟨hf, ⟨kvs, hkvs, rfl⟩, hpast⟩ := h
  obtain ⟨hr, hmulti⟩ := published hkvs hfile
  obtain ⟨keep, hnew⟩ := keeps_mapped hf hmulti
  refine ⟨keep, hf, ⟨kvs, hkvs, rfl⟩, fun r hlt hn => ?_⟩
  rcases Nat.lt_succ_iff_lt_or_eq.mp hlt with hlt | rfl
  · exact keep.mapped _ _ (hpast r hlt hn)
  · exact hnew

theorem publish_end {fs : String → Option Content} {task : Task} {version i : ℕ}
    {files : List (List KeyValue)} (h : (Worker.publishing task version files i).Ok job fs)
    (hfile : files[i]? = none) :
    (Worker.reporting ⟨.mapTask, task.taskId, version⟩).Ok job fs := by
  obtain ⟨hf, ⟨kvs, hkvs, rfl⟩, hpast⟩ := h
  rw [mapFiles_get] at hfile
  intro r hr
  refine hpast r ?_ hr
  by_contra hle
  rw [if_pos (by omega)] at hfile
  cases hfile

theorem share_succ {i r : ℕ} {f : String} (hf : job.files[i]? = some f) :
    share job (i + 1) r = share job i r +
      (job.mapOf f).filter fun kv => bucketOf job.nReduce kv.key = r := by
  unfold share
  rw [List.take_add_one, hf]
  simp

theorem collect_ok {fs : String → Option Content} {task : Task} {version i : ℕ}
    {kvs : List KeyValue} (h : (Worker.collecting task version i kvs).Ok job fs)
    (hi : i < task.nMap) :
    (Worker.collecting task version (i + 1)
      (kvs ++ decoded (fs (intermediateName i task.taskId)))).Ok job fs := by
  obtain ⟨hmap, hr, hle, hdone, hkvs⟩ := h
  rw [hmap] at hi
  obtain ⟨f, new, hf, hfile, hnew⟩ := hdone i hi task.taskId hr
  refine ⟨hmap, hr, hi, hdone, ?_⟩
  rw [hfile, share_succ hf, ← hnew, ← hkvs, Multiset.coe_add]
  rfl

theorem reduceOf_sorted {fs : String → Option Content} {task : Task} {version i : ℕ}
    {kvs sorted : List KeyValue} (h : (Worker.collecting task version i kvs).Ok job fs)
    (hi : task.nMap ≤ i) (hs : SortOf kvs sorted) :
    ReduceOf job task.taskId (reduceText job.reducef sorted) := by
  obtain ⟨hmap, hr, hle, hdone, hkvs⟩ := h
  have hall : i = job.files.length := Nat.le_antisymm hle (hmap ▸ hi)
  refine ⟨sorted, hs.2, ?_, rfl⟩
  rw [← hall, ← hkvs]
  exact Multiset.coe_eq_coe.mpr hs.1

end workers

section steps
variable {W : Type} [DecidableEq W] {job : Job} {w v : World W} {k : W} {l : Label W}

theorem Inv.setWorker (hi : Inv job w) {fs : String → Option Content} (keep : Keeps job w.fs fs)
    {s : Worker} (hs : s.Ok job fs) : Inv job (({ w with fs := fs } : World W).setWorker k s) where
  table := hi.table
  workers k' := by
    by_cases hk : k' = k
    · subst hk
      simpa [World.setWorker] using hs
    · simpa [World.setWorker, hk] using keep.ok (hi.workers k')
  reports a ha := keep.finished (hi.reports a ha)
  status k' i hd := keep.finished (hi.status k' i hd)

/-- No step spoils a file, and every step keeps the invariant. -/
theorem step_inv (hi : Inv job w) (h : exec job w l = some v) :
    Keeps job w.fs v.fs ∧ Inv job v := by
  have still : ∀ {k : W} {s : Worker}, s.Ok job w.fs →
      Keeps job w.fs w.fs ∧ Inv job (w.setWorker k s) := fun hs =>
    ⟨.refl, hi.setWorker .refl hs⟩
  cases l with
  | requestTask k now =>
    dsimp only [exec] at h
    split at h
    case h_1 =>
      obtain ⟨⟨c, r⟩, hr, rfl⟩ := Option.map_eq_some_iff.mp h
      exact ⟨.refl, (request_inv hi hr).setWorker .refl (next_ok hi hr)⟩
    case h_2 => cases h
  | mapf k kvs =>
    dsimp only [exec] at h
    split at h
    case h_1 task version hw =>
      split_ifs at h with hkvs
      cases h
      have hok := hi.workers k
      rw [hw] at hok
      exact still ⟨hok.2, ⟨kvs, hkvs, by rw [hok.1]⟩, fun r hr => absurd hr (Nat.not_lt_zero r)⟩
    case h_2 => cases h
  | publish k =>
    dsimp only [exec] at h
    split at h
    case h_1 task version files i hw =>
      split at h
      case h_1 file hfile =>
        cases h
        obtain ⟨keep, hok⟩ := publish_step (hw ▸ hi.workers k) hfile
        exact ⟨keep, hi.setWorker keep hok⟩
      case h_2 hfile =>
        cases h
        exact still (publish_end (hw ▸ hi.workers k) hfile)
    case h_2 => cases h
  | collect k =>
    dsimp only [exec] at h
    split at h
    case h_1 task version i kvs hw =>
      split_ifs at h with hlt
      cases h
      exact still (collect_ok (hw ▸ hi.workers k) hlt)
    case h_2 => cases h
  | reduce k sorted =>
    dsimp only [exec] at h
    split at h
    case h_1 task version i kvs hw =>
      split_ifs at h with hs
      cases h
      exact still (s := .writing task version _) (reduceOf_sorted (hw ▸ hi.workers k) hs.1 hs.2)
    case h_2 => cases h
  | rename k =>
    dsimp only [exec] at h
    split at h
    case h_1 task version text hw =>
      cases h
      have hok := hi.workers k
      rw [hw] at hok
      obtain ⟨keep, hnew⟩ := keeps_reduced hok
      exact ⟨keep, hi.setWorker (s := .reporting ⟨.reduceTask, _, _⟩) keep hnew⟩
    case h_2 => cases h
  | report k =>
    dsimp only [exec] at h
    split at h
    case h_1 a hw =>
      cases h
      have hok := hi.workers k
      rw [hw] at hok
      have hrep : Inv job { w with reports := a :: w.reports } :=
        { hi with reports := List.forall_mem_cons.mpr ⟨hok, hi.reports⟩ }
      exact ⟨.refl, hrep.setWorker .refl trivial⟩
    case h_2 => cases h
  | deliver a =>
    dsimp only [exec] at h
    split_ifs at h with ha
    obtain ⟨c, hc, rfl⟩ := Option.map_eq_some_iff.mp h
    exact ⟨.refl, deliver_inv hi ha hc⟩
  | tick now =>
    cases h
    exact ⟨.refl, tick_inv hi now⟩
  | crash k =>
    cases h
    exact still trivial

theorem run_inv {tr : List (Transition (World W) (Label W))} (run : Run (cluster W job) tr w) :
    Inv job w := by
  refine run.invariant (I := Inv job) (fun w h => ?_) (fun s l u hs h => (step_inv hs h).2)
  obtain ⟨hc, hworkers, hreports⟩ := h
  refine ⟨hc ▸ table_make, fun k => ?_, fun a ha => ?_, fun k i hd => ?_⟩
  · rw [hworkers]
    trivial
  · rw [hreports] at ha
    cases ha
  · rw [hc] at hd
    cases k <;> simp [statusOf, Coordinator.tasks, makeCoordinator] at hd

end steps

section agreement
variable {job : Job} {fs : String → Option Content}

theorem keyLines_unordered (job : Job) : Unordered (keyLines job.reducef) := by
  intro k xs ys h
  unfold keyLines
  rw [job.reducef_perm k _ _ (h.map KeyValue.value)]

theorem sum_mapOf {files : List String} {runs : List (List KeyValue)} (h : List.Forall₂
    (fun f (kvs : List KeyValue) => (kvs : Multiset KeyValue) = job.mapOf f) files runs) :
    (files.map job.mapOf).sum = (runs.flatten : Multiset KeyValue) := by
  induction h with
  | nil => rfl
  | cons hkvs _ ih =>
    rw [List.map_cons, List.sum_cons, ih, ← hkvs, List.flatten_cons, Multiset.coe_add]

theorem outputLines_eq (hr : ∀ r < job.nReduce, Reduced job fs r) {text : String}
    (hseq : Sequential job text) : outputLines job fs = linesOf text := by
  obtain ⟨runs, hruns, sorted, ⟨hperm, hsorted⟩, rfl⟩ := hseq
  rw [sequentialText_eq, linesOf_reduceText hsorted,
    ← total_partition (fun k => Nat.mod_lt (ihash k) job.nReduce_pos)]
  refine Finset.sum_congr rfl fun r hmem => ?_
  obtain ⟨out, hfile, part, hpart, hshare, rfl⟩ := hr r (Finset.mem_range.mp hmem)
  rw [hfile]
  dsimp only
  rw [linesOf_reduceText hpart]
  refine total_perm (keyLines_unordered job) ?_
  rw [share, List.take_length, sum_mapOf hruns, Multiset.filter_coe] at hshare
  exact (Multiset.coe_eq_coe.mp hshare).trans (hperm.symm.filter _)

theorem distributed_agrees {W : Type} [DecidableEq W] {tr : List (Transition (World W) (Label W))}
    {x : World W} (run : Run (cluster W job) tr x) (hdone : isDone x.c = true) {text : String}
    (hseq : Sequential job text) : outputLines job x.fs = linesOf text ∧
      ∀ y, Reaches (cluster W job) x y → outputLines job y.fs = linesOf text := by
  have hi := run_inv run
  have phase : x.c.phase = .done := of_decide_eq_true hdone
  have hreduced : ∀ r < job.nReduce, Reduced job x.fs r := by
    intro r hr
    rw [← hi.table.reduces (by simp [phase])] at hr
    exact hi.status .reduceTask r (MrFencing.status_of_all hr (hi.table.finished phase))
  refine ⟨outputLines_eq hreduced hseq, fun y hy => ?_⟩
  have hkeep := (hy.respects (R := fun s u : World W => Keeps job s.fs u.fs) (fun _ => .refl)
    (fun _ _ _ h h' => h.trans h') (fun s l u hs h => (step_inv hs h).2)
    (fun s l u hs h => (step_inv hs h).1) hi).1
  exact outputLines_eq (fun r hr => hkeep.reduced r (hreduced r hr)) hseq

def wordCount : Job where
  files := ["a", "b"]
  nReduce := 2
  mapOf f := if f = "a" then {⟨"x", ""⟩, ⟨"y", ""⟩} else {⟨"x", ""⟩}
  reducef _ vs := toString vs.length
  nReduce_pos := by decide
  reducef_perm _ _ _ h := by rw [h.length_eq]

/-- Worker 0 loses its map task to worker 1 after one file, and publishes the other one
    while the reduce tasks run; worker 2 stops as soon as it has a task. -/
def slowWorker : Option (List (Transition (World ℕ) (Label ℕ)) × World ℕ) :=
  replay (exec wordCount)
    ⟨makeCoordinator wordCount.files wordCount.nReduce, fun _ => .idle, fun _ => none, []⟩ []
    [.requestTask 0 0, .mapf 0 [⟨"y", ""⟩, ⟨"x", ""⟩], .publish 0, .tick 11000000000,
      .requestTask 1 11000000000, .mapf 1 [⟨"x", ""⟩, ⟨"y", ""⟩], .publish 1, .publish 1,
      .publish 1, .report 1, .deliver ⟨.mapTask, 0, 1⟩, .requestTask 2 12000000000, .crash 2,
      .tick 23000000000, .requestTask 1 23000000000, .mapf 1 [⟨"x", ""⟩], .publish 1, .publish 1,
      .publish 1, .report 1, .deliver ⟨.mapTask, 1, 1⟩, .requestTask 1 24000000000, .collect 1,
      .collect 1, .reduce 1 [⟨"y", ""⟩], .rename 1, .report 1, .deliver ⟨.reduceTask, 0, 0⟩,
      .publish 0, .publish 0, .report 0, .deliver ⟨.mapTask, 0, 0⟩, .requestTask 0 25000000000,
      .collect 0, .collect 0, .reduce 0 [⟨"x", ""⟩, ⟨"x", ""⟩], .rename 0, .report 0,
      .deliver ⟨.reduceTask, 1, 0⟩, .requestTask 1 26000000000]

theorem sequential_wordCount : Sequential wordCount "x 2\ny 1\n" :=
  ⟨[[⟨"x", ""⟩, ⟨"y", ""⟩], [⟨"x", ""⟩]], .cons rfl (.cons rfl .nil),
    [⟨"x", ""⟩, ⟨"x", ""⟩, ⟨"y", ""⟩], by decide +kernel, by decide +kernel⟩

theorem distributed_agrees_slowWorker : ∃ r, slowWorker = some r ∧ isDone r.2.c = true ∧
    outputLines wordCount r.2.fs = {"x 2", "y 1"} := by
  have hlines : linesOf "x 2\ny 1\n" = {"x 2", "y 1"} := by decide +kernel
  have hsome : slowWorker.map (fun r => isDone r.2.c) = some true := by decide +kernel
  obtain ⟨r, hr, hdone⟩ := Option.map_eq_some_iff.mp hsome
  have run : Run (cluster ℕ wordCount) r.1 r.2 :=
    Run.replay (fun _ _ _ h => h) _ (.start ⟨rfl, rfl, rfl⟩) hr
  have hagree := distributed_agrees run hdone sequential_wordCount
  exact ⟨r, hr, hdone, hagree.1.trans hlines⟩

end agreement
end DistributedLabs.MrJob
