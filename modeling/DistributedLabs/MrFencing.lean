import DistributedLabs.MrCoordinator

set_option autoImplicit false

/-!
# One attempt at a time

The coordinator with the record of the attempts it has handed out. A task goes through
numbered attempts; an attempt ends when it is reported or when it times out, and only
then can the next one be handed out, under the next number. So a late report can only
name a number that has passed, or a task that is done.
-/
namespace DistributedLabs.MrFencing
open MrCoordinator Runs

structure World where
  c : Coordinator
  -- newest first
  handed : List Attempt

inductive Label where
  | requestTask (now : ℤ)
  | reportDone (a : Attempt)
  | tick (now : ℤ)

def attemptOf (r : RequestTaskReply) : Option Attempt :=
  if r.task.type = .mapTask ∨ r.task.type = .reduceTask then
    some ⟨r.task.type, r.task.taskId, r.version⟩
  else none

/-- A report names some attempt that was handed out; it may be late, or repeated. -/
def exec (w : World) : Label → Option World
  | .requestTask now => (requestTask now w.c).map fun r =>
      ⟨r.1, (attemptOf r.2).toList ++ w.handed⟩
  | .reportDone a =>
    if a ∈ w.handed then (reportDone a w.c).map fun c => { w with c := c } else none
  | .tick now => some { w with c := timeoutWatcher now w.c }

def coordinator (files : List String) (nReduce : ℕ) : Machine World Label where
  init w := w = ⟨makeCoordinator files nReduce, []⟩
  step w l v := exec w l = some v

def statusOf (c : Coordinator) (k : TaskType) (i : ℕ) : Option Status :=
  ((c.tasks k)[i]?).map TaskState.status

/-- Number and status of the attempt that is next or going on. A task that is not in the
    table yet is as if it had been created. -/
def progressIn (ts : List TaskState) (i : ℕ) : ℕ × Status :=
  (ts[i]?).elim (0, .created) fun t => (t.version, t.status)

def progress (c : Coordinator) (k : TaskType) (i : ℕ) : ℕ × Status := progressIn (c.tasks k) i

def Latest (handed : List Attempt) (a : Attempt) : Prop :=
  handed.find? (fun b => b.taskType = a.taskType ∧ b.taskId = a.taskId) = some a

def TimedOut (tr : List (Transition World Label)) (a : Attempt) : Prop :=
  ∃ t ∈ tr, ∃ now, t.label = .tick now ∧
    progress t.pre.c a.taskType a.taskId = (a.version, .inProgress) ∧
    statusOf t.post.c a.taskType a.taskId = some .created

def Reported (tr : List (Transition World Label)) (a : Attempt) : Prop :=
  ∃ t ∈ tr, t.label = .reportDone a

section effects
variable {files : List String} {nReduce : ℕ} {w v : World}

theorem progress_set (c c' : Coordinator) (k : TaskType) {i : ℕ} {t t' : TaskState}
    (ht : (c.tasks k)[i]? = some t) (hset : c'.tasks k = (c.tasks k).set i t')
    (hother : ∀ k', k' ≠ k → c'.tasks k' = c.tasks k') :
    progress c k i = (t.version, t.status) ∧ progress c' k i = (t'.version, t'.status) ∧
      ∀ k' i', (k', i') ≠ (k, i) → progress c' k' i' = progress c k' i' := by
  have hlt := (List.getElem?_eq_some_iff.mp ht).choose
  refine ⟨by simp [progress, progressIn, ht],
    by simp [progress, progressIn, hset, List.getElem?_set_self hlt], ?_⟩
  intro k' i' hne
  unfold progress progressIn
  by_cases hk : k' = k
  · subst hk
    have hi : i ≠ i' := fun h => hne (by rw [h])
    rw [hset, List.getElem?_set_ne hi]
  · rw [hother k' hk]

inductive Effect (w v : World) : Label → Prop where
  | hand (now : ℤ) (k : TaskType) (i ver : ℕ) (hk : k = .mapTask ∨ k = .reduceTask)
      (pre : progress w.c k i = (ver, .created)) (post : progress v.c k i = (ver, .inProgress))
      (others : ∀ k' i', (k', i') ≠ (k, i) → progress v.c k' i' = progress w.c k' i')
      (handed : v.handed = ⟨k, i, ver⟩ :: w.handed) : Effect w v (.requestTask now)
  | keep (now : ℤ) (same : ∀ k i, progress v.c k i = progress w.c k i)
      (handed : v.handed = w.handed) : Effect w v (.requestTask now)
  | report (a : Attempt) (ha : a ∈ w.handed)
      (pre : progress w.c a.taskType a.taskId = (a.version, .inProgress))
      (post : progress v.c a.taskType a.taskId = (a.version, .done))
      (others : ∀ k' i', (k', i') ≠ (a.taskType, a.taskId) →
        progress v.c k' i' = progress w.c k' i')
      (handed : v.handed = w.handed) : Effect w v (.reportDone a)
  | ignore (a : Attempt) (ha : a ∈ w.handed)
      (pre : progress w.c a.taskType a.taskId ≠ (a.version, .inProgress)) (hv : v = w) :
      Effect w v (.reportDone a)
  | tick (now : ℤ) (each : ∀ k i, progress v.c k i = progress w.c k i ∨
        ∃ ver, progress w.c k i = (ver, .inProgress) ∧ progress v.c k i = (ver + 1, .created) ∧
          statusOf v.c k i = some .created)
      (handed : v.handed = w.handed) : Effect w v (.tick now)

theorem progress_of_status {c : Coordinator} {k : TaskType} {i : ℕ} {st : Status}
    (h : statusOf c k i = some st) : (progress c k i).2 = st := by
  obtain ⟨t, ht, rfl⟩ := Option.map_eq_some_iff.mp h
  simp [progress, progressIn, ht]

theorem status_of_progress {c : Coordinator} {k : TaskType} {i : ℕ} {st : Status}
    (h : (progress c k i).2 = st) (hne : st ≠ .created) : statusOf c k i = some st := by
  unfold progress progressIn at h
  unfold statusOf
  cases ht : (c.tasks k)[i]? with
  | none =>
    rw [ht] at h
    exact absurd h.symm hne
  | some t =>
    rw [ht] at h
    exact congrArg some h

theorem status_of_all {c : Coordinator} {k : TaskType} {i : ℕ} {st : Status}
    (hi : i < (c.tasks k).length) (h : ∀ t ∈ c.tasks k, t.status = st) :
    statusOf c k i = some st := by
  simp only [statusOf, List.getElem?_eq_getElem hi, Option.map_some]
  rw [h _ (List.getElem_mem hi)]

theorem progressIn_new (n i : ℕ) : progressIn (newReduceTasks n) i = (0, .created) := by
  unfold progressIn newReduceTasks
  rw [List.getElem?_map]
  cases (List.range n)[i]? <;> rfl

theorem effect_request {now : ℤ} (hc : Table files nReduce w.c)
    (h : exec w (.requestTask now) = some v) : Effect w v (.requestTask now) := by
  obtain ⟨⟨c', r⟩, hr, rfl⟩ := Option.map_eq_some_iff.mp h
  obtain ⟨c, handed⟩ := w
  cases requestTask_spec hr with
  | mapTask i t phase ht free =>
    obtain ⟨hpre, hpost, hother⟩ := progress_set c { c with
      mapTasks := c.mapTasks.set i { t with status := .inProgress, startAt := now } } .mapTask ht
      rfl (fun k hk => by cases k <;> first | rfl | exact absurd rfl hk)
    rw [free] at hpre
    have hid := hc.mapIds i t ht
    exact .hand now .mapTask i t.version (.inl rfl) hpre hpost hother (by simp [attemptOf, hid])
  | switch t ts phase done ht =>
    -- no reduce task was in the table; the first one is handed out at once
    have hnil : c.reduceTasks = [] := hc.before phase
    rw [hnil, List.nil_append] at ht
    have hnew : ∀ i, progressIn (t :: ts) i = (0, .created) := by
      intro i
      rw [← ht]
      exact progressIn_new _ i
    have hver : t.version = 0 := congrArg Prod.fst (hnew 0)
    have hpre : ∀ i, progress c .reduceTask i = (0, .created) := by
      intro i
      simp [progress, progressIn, Coordinator.tasks, hnil]
    refine .hand now .reduceTask 0 0 (.inr rfl) (hpre 0) ?_ ?_ (by simp [attemptOf, hver])
    · simp [progress, progressIn, Coordinator.tasks, hver]
    · intro k i hne
      cases k with
      | reduceTask =>
        cases i with
        | zero => exact absurd rfl hne
        | succ i =>
          rw [hpre]
          exact hnew (i + 1)
      | mapTask => rfl
      | waitTask => rfl
      | exitTask => rfl
  | reduceTask i t phase ht free =>
    obtain ⟨hpre, hpost, hother⟩ := progress_set c { c with
      reduceTasks := c.reduceTasks.set i { t with status := .inProgress, startAt := now } }
      .reduceTask ht rfl (fun k hk => by cases k <;> first | rfl | exact absurd rfl hk)
    rw [free] at hpre
    have hid := hc.reduceIds i t ht
    exact .hand now .reduceTask i t.version (.inr rfl) hpre hpost hother (by simp [attemptOf, hid])
  | finish => exact .keep now (fun k i => by cases k <;> rfl) rfl
  | wait => exact .keep now (fun _ _ => rfl) rfl
  | exit => exact .keep now (fun _ _ => rfl) rfl

theorem effect_complete {a : Attempt} {c c' : Coordinator} {handed : List Attempt}
    (ha : a ∈ handed) {ts : List TaskState} (hts : complete a (c.tasks a.taskType) = some ts)
    (hset : c'.tasks a.taskType = ts)
    (hother : ∀ k, k ≠ a.taskType → c'.tasks k = c.tasks k)
    (hsame : ts = c.tasks a.taskType → c' = c) :
    Effect ⟨c, handed⟩ ⟨c', handed⟩ (.reportDone a) := by
  obtain ⟨t, ht, ⟨hver, hst, hdone⟩ | ⟨hno, hkeep⟩⟩ := complete_spec hts
  · obtain ⟨hpre, hpost, hothers⟩ := progress_set c c' a.taskType ht (hset.trans hdone) hother
    rw [hst, hver] at hpre
    rw [hver] at hpost
    exact .report a ha hpre hpost hothers rfl
  · refine .ignore a ha (fun hp => hno ?_) (by rw [hsame hkeep])
    have hp : (t.version, t.status) = (a.version, Status.inProgress) := by
      simpa [progress, progressIn, ht] using hp
    exact ⟨congrArg Prod.fst hp, congrArg Prod.snd hp⟩

theorem effect_report {a : Attempt} (htypes : ∀ a ∈ w.handed, a.taskType = .mapTask ∨
      a.taskType = .reduceTask) (h : exec w (.reportDone a) = some v) :
    Effect w v (.reportDone a) := by
  dsimp only [exec] at h
  split_ifs at h with ha
  obtain ⟨c', hc', rfl⟩ := Option.map_eq_some_iff.mp h
  obtain ⟨c, handed⟩ := w
  unfold reportDone at hc'
  rcases htypes a ha with hk | hk
  · rw [if_pos hk] at hc'
    obtain ⟨ts, hts, rfl⟩ := Option.map_eq_some_iff.mp hc'
    refine effect_complete ha (by rw [hk]; exact hts) (by rw [hk]; rfl) (fun k hne => ?_)
      (fun heq => ?_)
    · rw [hk] at hne
      cases k <;> first | rfl | exact absurd rfl hne
    · rw [hk] at heq
      rw [heq]
      rfl
  · rw [if_neg (by simp [hk])] at hc'
    obtain ⟨ts, hts, rfl⟩ := Option.map_eq_some_iff.mp hc'
    refine effect_complete ha (by rw [hk]; exact hts) (by rw [hk]; rfl) (fun k hne => ?_)
      (fun heq => ?_)
    · rw [hk] at hne
      cases k <;> first | rfl | exact absurd rfl hne
    · rw [hk] at heq
      rw [heq]
      rfl

theorem progress_expire (now : ℤ) (ts : List TaskState) (i : ℕ) :
    progressIn (expire now ts) i = progressIn ts i ∨ ∃ ver, progressIn ts i = (ver, .inProgress) ∧
      progressIn (expire now ts) i = (ver + 1, .created) ∧
      ((expire now ts)[i]?).map TaskState.status = some .created := by
  unfold progressIn expire
  rw [List.getElem?_map]
  cases ts[i]? with
  | none => exact .inl rfl
  | some t =>
    simp only [Option.map_some, Option.elim_some]
    split_ifs with hlate
    · exact .inr ⟨t.version, by rw [hlate.1], rfl, rfl⟩
    · exact .inl rfl

theorem effect_tick {now : ℤ} (h : exec w (.tick now) = some v) : Effect w v (.tick now) := by
  cases h
  refine .tick now (fun k i => ?_) rfl
  obtain ⟨c, handed⟩ := w
  unfold timeoutWatcher
  dsimp only
  split
  · cases k with
    | mapTask => exact progress_expire now c.mapTasks i
    | reduceTask => exact .inl rfl
    | waitTask => exact .inl rfl
    | exitTask => exact .inl rfl
  · cases k with
    | mapTask => exact .inl rfl
    | reduceTask => exact progress_expire now c.reduceTasks i
    | waitTask => exact .inl rfl
    | exitTask => exact .inl rfl
  · exact .inl rfl

end effects

section invariant

/-- Of the attempts at one task, those before the present one have timed out, and the
    present one was handed out unless the task waits for it. -/
structure TaskInv (tr : List (Transition World Label)) (handed : List Attempt) (k : TaskType)
    (i : ℕ) (p : ℕ × Status) : Prop where
  bound : ∀ ver, ⟨k, i, ver⟩ ∈ handed → ver ≤ p.1
  current : ⟨k, i, p.1⟩ ∈ handed ↔ p.2 ≠ .created
  timedOut : ∀ ver, TimedOut tr ⟨k, i, ver⟩ → ⟨k, i, ver⟩ ∈ handed ∧ ver < p.1
  passed : ∀ ver, ⟨k, i, ver⟩ ∈ handed → ver < p.1 → TimedOut tr ⟨k, i, ver⟩
  reported : ∀ ver, Reported tr ⟨k, i, ver⟩ → ⟨k, i, ver⟩ ∈ handed ∧
    (ver < p.1 ∨ (ver = p.1 ∧ p.2 = .done))
  done : p.2 = .done → Reported tr ⟨k, i, p.1⟩

variable {tr : List (Transition World Label)} {w v : World} {k : TaskType} {i : ℕ}
  {p : ℕ × Status} {handed : List Attempt} {a : Attempt} {l : Label}

theorem timedOut_cons : TimedOut (⟨w, l, v⟩ :: tr) a ↔ TimedOut tr a ∨
    ∃ now, l = .tick now ∧ progress w.c a.taskType a.taskId = (a.version, .inProgress) ∧
      statusOf v.c a.taskType a.taskId = some .created := by
  constructor
  · rintro ⟨t, ht, now, hl, hpre, hpost⟩
    rcases List.mem_cons.mp ht with rfl | ht
    · exact .inr ⟨now, hl, hpre, hpost⟩
    · exact .inl ⟨t, ht, now, hl, hpre, hpost⟩
  · rintro (⟨t, ht, now, hl, hpre, hpost⟩ | ⟨now, hl, hpre, hpost⟩)
    · exact ⟨t, List.mem_cons_of_mem _ ht, now, hl, hpre, hpost⟩
    · exact ⟨_, List.mem_cons_self, now, hl, hpre, hpost⟩

/-- Only the watcher times attempts out. -/
theorem timedOut_of_cons (h : TimedOut (⟨w, l, v⟩ :: tr) a) (hl : ∀ now, l ≠ .tick now) :
    TimedOut tr a := by
  refine (timedOut_cons.mp h).resolve_right ?_
  rintro ⟨now, heq, _⟩
  exact hl now heq

theorem reported_cons : Reported (⟨w, l, v⟩ :: tr) a ↔ Reported tr a ∨ l = .reportDone a := by
  constructor
  · rintro ⟨t, ht, hl⟩
    rcases List.mem_cons.mp ht with rfl | ht
    · exact .inr hl
    · exact .inl ⟨t, ht, hl⟩
  · rintro (⟨t, ht, hl⟩ | hl)
    · exact ⟨t, List.mem_cons_of_mem _ ht, hl⟩
    · exact ⟨_, List.mem_cons_self, hl⟩

theorem TaskInv.keep {handed' : List Attempt} (h : TaskInv tr handed k i p)
    (hh : ∀ ver, ⟨k, i, ver⟩ ∈ handed' ↔ ⟨k, i, ver⟩ ∈ handed)
    (ht : ∀ ver, TimedOut (⟨w, l, v⟩ :: tr) ⟨k, i, ver⟩ → TimedOut tr ⟨k, i, ver⟩)
    (hr : ∀ ver, l = .reportDone ⟨k, i, ver⟩ →
      ⟨k, i, ver⟩ ∈ handed ∧ (ver < p.1 ∨ (ver = p.1 ∧ p.2 = .done))) :
    TaskInv (⟨w, l, v⟩ :: tr) handed' k i p where
  bound ver hv := h.bound ver ((hh ver).mp hv)
  current := (hh p.1).trans h.current
  timedOut ver hv := by
    rw [hh]
    exact h.timedOut ver (ht ver hv)
  passed ver hv hlt := timedOut_cons.mpr (.inl (h.passed ver ((hh ver).mp hv) hlt))
  reported ver hv := by
    rw [hh]
    exact (reported_cons.mp hv).elim (h.reported ver) (hr ver)
  done hd := reported_cons.mpr (.inl (h.done hd))

structure Inv (files : List String) (nReduce : ℕ) (tr : List (Transition World Label)) (w : World) :
    Prop where
  table : Table files nReduce w.c
  types : ∀ a ∈ w.handed, a.taskType = .mapTask ∨ a.taskType = .reduceTask
  tasks : ∀ k i, TaskInv tr w.handed k i (progress w.c k i)
  order : w.handed.Pairwise fun a b => a.taskType = b.taskType → a.taskId = b.taskId →
    b.version < a.version

variable {files : List String} {nReduce : ℕ}

/-- The attempt that is handed out is new: its number is higher than all before. -/
theorem TaskInv.fresh {ver : ℕ} (h : TaskInv tr handed k i (ver, .created)) :
    ∀ u, ⟨k, i, u⟩ ∈ handed → u < ver := by
  intro u hu
  have hle : u ≤ ver := h.bound u hu
  have hne : u ≠ ver := by
    rintro rfl
    exact h.current.mp hu rfl
  omega

theorem TaskInv.hand {ver : ℕ} (h : TaskInv tr handed k i (ver, .created))
    (hl : ∃ now, l = .requestTask now) :
    TaskInv (⟨w, l, v⟩ :: tr) (⟨k, i, ver⟩ :: handed) k i (ver, .inProgress) := by
  obtain ⟨now, rfl⟩ := hl
  have hfresh := h.fresh
  have mem : ∀ u, (⟨k, i, u⟩ : Attempt) ∈ (⟨k, i, ver⟩ : Attempt) :: handed ↔
      u = ver ∨ ⟨k, i, u⟩ ∈ handed := by
    intro u
    simp
  refine ⟨fun u hu => ?_, ?_, fun u hu => ?_, fun u hu hlt => ?_, fun u hu => ?_, nofun⟩
  · rcases (mem u).mp hu with rfl | hu
    · exact Nat.le_refl _
    · exact Nat.le_of_lt (hfresh u hu)
  · simp
  · obtain ⟨hin, hlt⟩ := h.timedOut u (timedOut_of_cons hu nofun)
    exact ⟨(mem u).mpr (.inr hin), hlt⟩
  · have hlt : u < ver := hlt
    have hin := ((mem u).mp hu).resolve_left (by omega)
    exact timedOut_cons.mpr (.inl (h.passed u hin hlt))
  · obtain ⟨hin, _⟩ := h.reported u ((reported_cons.mp hu).resolve_right nofun)
    exact ⟨(mem u).mpr (.inr hin), .inl (hfresh u hin)⟩

theorem TaskInv.report {ver : ℕ} (h : TaskInv tr handed k i (ver, .inProgress))
    (hl : l = .reportDone ⟨k, i, ver⟩) : TaskInv (⟨w, l, v⟩ :: tr) handed k i (ver, .done) := by
  subst hl
  have hin : ⟨k, i, ver⟩ ∈ handed := h.current.mpr nofun
  refine ⟨h.bound, ⟨nofun, fun _ => hin⟩, fun u hu => ?_, fun u hu hlt => ?_, fun u hu => ?_,
    fun _ => reported_cons.mpr (.inr rfl)⟩
  · exact h.timedOut u (timedOut_of_cons hu nofun)
  · exact timedOut_cons.mpr (.inl (h.passed u hu hlt))
  · rcases reported_cons.mp hu with hu | hu
    · obtain ⟨hin, hlt | ⟨_, hd⟩⟩ := h.reported u hu
      · exact ⟨hin, .inl hlt⟩
      · cases hd
    · cases hu
      exact ⟨hin, .inr ⟨rfl, rfl⟩⟩

theorem TaskInv.expire {ver : ℕ} {now : ℤ} (h : TaskInv tr handed k i (ver, .inProgress))
    (hpre : progress w.c k i = (ver, .inProgress)) (hpost : statusOf v.c k i = some .created) :
    TaskInv (⟨w, .tick now, v⟩ :: tr) handed k i (ver + 1, .created) := by
  have hin : ⟨k, i, ver⟩ ∈ handed := h.current.mpr nofun
  have hbound : ∀ u, ⟨k, i, u⟩ ∈ handed → u ≤ ver := h.bound
  have hnow : TimedOut (⟨w, .tick now, v⟩ :: tr) ⟨k, i, ver⟩ :=
    timedOut_cons.mpr (.inr ⟨now, rfl, hpre, hpost⟩)
  refine ⟨fun u hu => Nat.le_succ_of_le (hbound u hu), ⟨fun hu => ?_, fun hne => absurd rfl hne⟩,
    fun u hu => ?_, fun u hu hlt => ?_, fun u hu => ?_, nofun⟩
  · have := hbound _ hu
    omega
  · rcases timedOut_cons.mp hu with hu | ⟨_, _, hp, _⟩
    · obtain ⟨hu, hlt⟩ := h.timedOut u hu
      exact ⟨hu, Nat.lt_succ_of_lt hlt⟩
    · have heq : u = ver := by
        have := hp.symm.trans hpre
        exact congrArg Prod.fst this
      subst heq
      exact ⟨hin, Nat.lt_succ_self _⟩
  · rcases Nat.lt_succ_iff_lt_or_eq.mp hlt with hlt | rfl
    · exact timedOut_cons.mpr (.inl (h.passed u hu hlt))
    · exact hnow
  · obtain ⟨hu, hlt | ⟨_, hd⟩⟩ := h.reported u ((reported_cons.mp hu).resolve_right nofun)
    · exact ⟨hu, .inl (Nat.lt_succ_of_lt hlt)⟩
    · cases hd

theorem table_step (hc : Table files nReduce w.c) (h : exec w l = some v) :
    Table files nReduce v.c := by
  cases l with
  | requestTask now =>
    obtain ⟨⟨c, r⟩, hr, rfl⟩ := Option.map_eq_some_iff.mp h
    exact hc.requestTask hr
  | reportDone a =>
    dsimp only [exec] at h
    split_ifs at h
    obtain ⟨c, hr, rfl⟩ := Option.map_eq_some_iff.mp h
    exact hc.reportDone hr
  | tick now =>
    cases h
    exact hc.timeoutWatcher now

theorem exec_effect (hi : Inv files nReduce tr w) (h : exec w l = some v) : Effect w v l := by
  cases l with
  | requestTask now => exact effect_request hi.table h
  | reportDone a => exact effect_report hi.types h
  | tick now => exact effect_tick h

theorem tasks_step (hi : Inv files nReduce tr w) (h : exec w l = some v) (k : TaskType) (i : ℕ) :
    TaskInv (⟨w, l, v⟩ :: tr) v.handed k i (progress v.c k i) := by
  have hki := hi.tasks k i
  cases exec_effect hi h with
  | hand now k' i' ver hk pre post others handed =>
    rw [handed]
    by_cases heq : (k, i) = (k', i')
    · cases heq
      rw [pre] at hki
      rw [post]
      exact hki.hand ⟨now, rfl⟩
    · rw [others k i heq]
      refine hki.keep (fun ver' => ?_) (fun _ hv => timedOut_of_cons hv nofun) nofun
      rw [List.mem_cons, or_iff_right]
      rintro h
      cases h
      exact heq rfl
  | keep now same handed =>
    rw [handed, same]
    exact hki.keep (fun _ => Iff.rfl) (fun _ hv => timedOut_of_cons hv nofun) nofun
  | report a ha pre post others handed =>
    rw [handed]
    by_cases heq : (k, i) = (a.taskType, a.taskId)
    · cases heq
      rw [pre] at hki
      rw [post]
      exact hki.report rfl
    · rw [others k i heq]
      refine hki.keep (fun _ => Iff.rfl) (fun _ hv => timedOut_of_cons hv nofun) ?_
      rintro ver hl
      cases hl
      exact absurd rfl heq
  | ignore a ha pre hv =>
    subst hv
    refine hki.keep (fun _ => Iff.rfl) (fun _ hv => timedOut_of_cons hv nofun) ?_
    rintro ver hl
    cases hl
    refine ⟨ha, ?_⟩
    rcases Nat.lt_or_eq_of_le (hki.bound ver ha) with hlt | heq
    · exact .inl hlt
    · refine .inr ⟨heq, ?_⟩
      rw [heq] at ha
      have hne := hki.current.mp ha
      have hnot : (progress v.c k i).2 ≠ .inProgress := fun hst =>
        pre (Prod.ext heq.symm hst)
      cases hst : (progress v.c k i).2 with
      | created => exact absurd hst hne
      | inProgress => exact absurd hst hnot
      | done => rfl
  | tick now each handed =>
    rw [handed]
    rcases each k i with hsame | ⟨ver, hpre, hpost, hstat⟩
    · rw [hsame]
      refine hki.keep (fun _ => Iff.rfl) (fun ver hv => ?_) nofun
      refine (timedOut_cons.mp hv).resolve_right ?_
      rintro ⟨_, _, hp, hs⟩
      have hst := progress_of_status hs
      rw [hsame, hp] at hst
      cases hst
    · rw [hpre] at hki
      rw [hpost]
      exact hki.expire hpre hstat

theorem Effect.handed_cases (h : Effect w v l) : v.handed = w.handed ∨
    ∃ k i ver, (k = .mapTask ∨ k = .reduceTask) ∧ progress w.c k i = (ver, .created) ∧
      v.handed = ⟨k, i, ver⟩ :: w.handed := by
  cases h with
  | hand now k i ver hk pre post others handed => exact .inr ⟨k, i, ver, hk, pre, handed⟩
  | keep now same handed => exact .inl handed
  | report a ha pre post others handed => exact .inl handed
  | ignore a ha pre hv => exact .inl (congrArg World.handed hv)
  | tick now each handed => exact .inl handed

theorem inv_step (hi : Inv files nReduce tr w) (h : exec w l = some v) :
    Inv files nReduce (⟨w, l, v⟩ :: tr) v := by
  refine ⟨table_step hi.table h, ?_, tasks_step hi h, ?_⟩ <;>
    rcases (exec_effect hi h).handed_cases with handed | ⟨k, i, ver, hk, pre, handed⟩ <;>
    rw [handed]
  · exact hi.types
  · exact List.forall_mem_cons.mpr ⟨hk, hi.types⟩
  · exact hi.order
  · refine List.pairwise_cons.mpr ⟨fun b hb htype hid => ?_, hi.order⟩
    have hki := hi.tasks k i
    rw [pre] at hki
    refine hki.fresh b.version ?_
    obtain ⟨k', i', u⟩ := b
    cases htype
    cases hid
    exact hb

theorem run_inv (run : Run (coordinator files nReduce) tr w) : Inv files nReduce tr w := by
  refine run.history (I := Inv files nReduce) ?_ fun tr s l u _ hi h => inv_step hi h
  rintro _ rfl
  have hzero : ∀ k i, progress (makeCoordinator files nReduce) k i = (0, .created) := by
    intro k i
    cases k with
    | mapTask =>
      simp only [progress, progressIn, Coordinator.tasks, makeCoordinator, List.getElem?_map]
      cases (files.zipIdx)[i]? <;> rfl
    | reduceTask => rfl
    | waitTask => rfl
    | exitTask => rfl
  refine ⟨table_make, by simp, fun k i => ?_, List.Pairwise.nil⟩
  rw [hzero]
  refine ⟨by simp, by simp, ?_, by simp, ?_, by simp⟩
  · rintro ver ⟨t, ht, _⟩
    cases ht
  · rintro ver ⟨t, ht, _⟩
    cases ht

end invariant

section main
variable {files : List String} {nReduce : ℕ} {tr : List (Transition World Label)} {w : World}

def MapsComplete (files : List String) (c : Coordinator) : Prop :=
  c.mapTasks.length = files.length ∧ ∀ t ∈ c.mapTasks, t.status = .done

def AllComplete (files : List String) (nReduce : ℕ) (c : Coordinator) : Prop :=
  MapsComplete files c ∧ c.reduceTasks.length = nReduce ∧ ∀ t ∈ c.reduceTasks, t.status = .done

structure AttemptsFenced (files : List String) (nReduce : ℕ) (tr : List (Transition World Label))
    (w : World) : Prop where
  once : w.handed.Nodup
  report : ∀ a ∈ w.handed, ∃ c, reportDone a w.c = some c ∧
    ((∃ k i, statusOf c k i ≠ statusOf w.c k i) ↔
      Latest w.handed a ∧ ¬ TimedOut tr a ∧ ¬ Reported tr a)
  kept : ∀ t ∈ tr, ∀ k i, statusOf t.pre.c k i = some .done → statusOf w.c k i = some .done
  reduce : ∀ now c r, requestTask now w.c = some (c, r) → r.task.type = .reduceTask →
    MapsComplete files w.c
  exit : ∀ now c r, requestTask now w.c = some (c, r) → r.task.type = .exitTask →
    AllComplete files nReduce w.c
  done : isDone w.c = true → AllComplete files nReduce w.c

theorem task_of_handed (hi : Inv files nReduce tr w) {a : Attempt} (ha : a ∈ w.handed) :
    ∃ t, (w.c.tasks a.taskType)[a.taskId]? = some t := by
  have hki := hi.tasks a.taskType a.taskId
  cases ht : (w.c.tasks a.taskType)[a.taskId]? with
  | some t => exact ⟨t, rfl⟩
  | none =>
    have hp : progress w.c a.taskType a.taskId = (0, .created) := by simp [progress, progressIn, ht]
    rw [hp] at hki
    exact absurd (hki.fresh a.version ha) (Nat.not_lt_zero _)

theorem reportDone_some (hi : Inv files nReduce tr w) {a : Attempt} (ha : a ∈ w.handed) :
    ∃ c, reportDone a w.c = some c := by
  obtain ⟨t, ht⟩ := task_of_handed hi ha
  unfold reportDone complete
  rcases hi.types a ha with hk | hk
  · rw [hk] at ht
    have ht : w.c.mapTasks[a.taskId]? = some t := ht
    simp [hk, ht]
  · rw [hk] at ht
    have ht : w.c.reduceTasks[a.taskId]? = some t := ht
    simp [hk, ht]

theorem never_panics (run : Run (coordinator files nReduce) tr w) (hpos : 1 ≤ nReduce) :
    (∀ now, (exec w (.requestTask now)).isSome) ∧
      ∀ a ∈ w.handed, (exec w (.reportDone a)).isSome := by
  have hi := run_inv run
  refine ⟨fun now => ?_, fun a ha => ?_⟩
  · simpa [exec] using hi.table.requestTask_some hpos now
  · obtain ⟨c, hc⟩ := reportDone_some hi ha
    simp [exec, ha, hc]

/-- A report changes a status exactly when the table has the attempt in progress. -/
theorem report_changes (hi : Inv files nReduce tr w) {a : Attempt} (ha : a ∈ w.handed)
    {c : Coordinator} (hc : reportDone a w.c = some c) :
    (∃ k i, statusOf c k i ≠ statusOf w.c k i) ↔
      progress w.c a.taskType a.taskId = (a.version, .inProgress) := by
  have hexec : exec w (.reportDone a) = some { w with c := c } := by
    simp [exec, ha, hc]
  cases effect_report hi.types hexec with
  | report _ _ pre post =>
    refine iff_of_true ⟨a.taskType, a.taskId, ?_⟩ pre
    rw [status_of_progress (congrArg Prod.snd post) nofun,
      status_of_progress (congrArg Prod.snd pre) nofun]
    nofun
  | ignore _ _ pre hv =>
    refine iff_of_false ?_ pre
    rintro ⟨k, i, hne⟩
    have hcw : c = w.c := congrArg World.c hv
    rw [hcw] at hne
    exact hne rfl

theorem latest_of_version (hi : Inv files nReduce tr w) {a : Attempt} (ha : a ∈ w.handed)
    (hver : (progress w.c a.taskType a.taskId).1 = a.version) : Latest w.handed a := by
  obtain ⟨newer, older, heq⟩ := List.append_of_mem ha
  unfold Latest
  rw [List.find?_eq_some_iff_append]
  refine ⟨by simp, newer, older, heq, fun b hb => ?_⟩
  have horder := hi.order
  rw [heq, List.pairwise_append] at horder
  have hlt := horder.2.2 b hb a List.mem_cons_self
  simp only [Bool.not_eq_true', decide_eq_false_iff_not]
  rintro ⟨htype, hid⟩
  have hlt := hlt htype hid
  have hle := (hi.tasks a.taskType a.taskId).bound b.version (by
    rw [← htype, ← hid, heq]
    exact List.mem_append_left _ hb)
  omega

/-- The attempt that the table has in progress, told from the history alone. -/
theorem inProgress_iff (hi : Inv files nReduce tr w) {a : Attempt} (ha : a ∈ w.handed) :
    progress w.c a.taskType a.taskId = (a.version, .inProgress) ↔
      Latest w.handed a ∧ ¬ TimedOut tr a ∧ ¬ Reported tr a := by
  have hki := hi.tasks a.taskType a.taskId
  constructor
  · intro hp
    refine ⟨latest_of_version hi ha (congrArg Prod.fst hp), fun ht => ?_, fun hr => ?_⟩
    · have := (hki.timedOut a.version ht).2
      rw [hp] at this
      exact Nat.lt_irrefl _ this
    · rcases (hki.reported a.version hr).2 with hlt | ⟨_, hd⟩
      · rw [hp] at hlt
        exact Nat.lt_irrefl _ hlt
      · rw [hp] at hd
        cases hd
  · rintro ⟨_, htimed, hrep⟩
    have hver : a.version = (progress w.c a.taskType a.taskId).1 := by
      rcases Nat.lt_or_eq_of_le (hki.bound a.version ha) with hlt | heq
      · exact absurd (hki.passed a.version ha hlt) htimed
      · exact heq
    have hcur := hki.current
    have hdone := hki.done
    rw [← hver] at hcur hdone
    have hne := hcur.mp ha
    refine Prod.ext hver.symm ?_
    cases hst : (progress w.c a.taskType a.taskId).2 with
    | created => exact absurd hst hne
    | inProgress => rfl
    | done => exact absurd (hdone hst) hrep

/-- Only the report of an attempt at it can complete a task. -/
theorem Effect.done_of {w v : World} {l : Label} (h : Effect w v l) {k : TaskType} {i : ℕ}
    (hd : statusOf v.c k i = some .done) : statusOf w.c k i = some .done ∨
      ∃ a, l = .reportDone a ∧ a.taskType = k ∧ a.taskId = i := by
  have hp := progress_of_status hd
  cases h with
  | hand now k' i' ver hk pre post others handed =>
    left
    by_cases heq : (k, i) = (k', i')
    · cases heq
      rw [post] at hp
      cases hp
    · rw [others k i heq] at hp
      exact status_of_progress hp nofun
  | keep now same handed =>
    left
    rw [same] at hp
    exact status_of_progress hp nofun
  | report a ha pre post others handed =>
    by_cases heq : (k, i) = (a.taskType, a.taskId)
    · cases heq
      exact .inr ⟨a, rfl, rfl, rfl⟩
    · left
      rw [others k i heq] at hp
      exact status_of_progress hp nofun
  | ignore a ha pre hv =>
    left
    rw [← hv]
    exact hd
  | tick now each handed =>
    left
    rcases each k i with hsame | ⟨ver, _, hpost, _⟩
    · rw [hsame] at hp
      exact status_of_progress hp nofun
    · rw [hpost] at hp
      cases hp

theorem done_step {v : World} {l : Label} (hi : Inv files nReduce tr w) (h : exec w l = some v)
    {k : TaskType} {i : ℕ} (hd : statusOf w.c k i = some .done) :
    statusOf v.c k i = some .done := by
  have hp := progress_of_status hd
  refine status_of_progress ?_ nofun
  cases exec_effect hi h with
  | hand now k' i' ver hk pre post others handed =>
    rw [others k i, hp]
    rintro heq
    cases heq
    rw [pre] at hp
    cases hp
  | keep now same handed => rw [same, hp]
  | report a ha pre post others handed =>
    rw [others k i, hp]
    rintro heq
    cases heq
    rw [pre] at hp
    cases hp
  | ignore a ha pre hv => rw [hv, hp]
  | tick now each handed =>
    rcases each k i with hsame | ⟨ver, hpre, _⟩
    · rw [hsame, hp]
    · rw [hpre] at hp
      cases hp

theorem done_kept (run : Run (coordinator files nReduce) tr w) :
    ∀ t ∈ tr, ∀ k i, statusOf t.pre.c k i = some .done → statusOf w.c k i = some .done := by
  refine run.history (I := fun tr w => ∀ t ∈ tr, ∀ k i, statusOf t.pre.c k i = some .done →
    statusOf w.c k i = some .done) (fun _ _ => nofun) ?_
  intro tr w l v run ih h t ht k i hd
  rcases List.mem_cons.mp ht with rfl | ht
  · exact done_step (run_inv run) h hd
  · exact done_step (run_inv run) h (ih t ht k i hd)

theorem attempts_fenced (run : Run (coordinator files nReduce) tr w) :
    AttemptsFenced files nReduce tr w := by
  have hi := run_inv run
  have maps : w.c.phase ≠ .map → MapsComplete files w.c := fun hne =>
    ⟨hi.table.maps, hi.table.mapsDone hne⟩
  refine ⟨?_, fun a ha => ?_, done_kept run, fun now c r hr htype => ?_, fun now c r hr htype => ?_,
    fun hd => ?_⟩
  · refine hi.order.imp fun {a b} hab heq => ?_
    subst heq
    exact Nat.lt_irrefl _ (hab rfl rfl)
  · obtain ⟨c, hc⟩ := reportDone_some hi ha
    exact ⟨c, hc, (report_changes hi ha hc).trans (inProgress_iff hi ha)⟩
  · cases requestTask_spec hr with
    | mapTask => cases htype
    | switch t ts phase done ht => exact ⟨hi.table.maps, done⟩
    | reduceTask i t phase ht free => exact maps (by simp [phase])
    | finish => cases htype
    | wait => cases htype
    | exit => cases htype
  · cases requestTask_spec hr with
    | mapTask => cases htype
    | switch => cases htype
    | reduceTask => cases htype
    | finish phase done =>
      have hne : w.c.phase ≠ .map := by simp [phase]
      exact ⟨maps hne, hi.table.reduces hne, done⟩
    | wait => cases htype
    | exit phase =>
      have hne : w.c.phase ≠ .map := by simp [phase]
      exact ⟨maps hne, hi.table.reduces hne, hi.table.finished phase⟩
  · have phase : w.c.phase = .done := of_decide_eq_true hd
    have hne : w.c.phase ≠ .map := by simp [phase]
    exact ⟨maps hne, hi.table.reduces hne, hi.table.finished phase⟩

/-- One file and one reduce task. The first map attempt times out and reports late; the
    second one and the reduce attempt are reported, the last one twice. -/
def lateReport : Option (List (Transition World Label) × World) :=
  replay exec ⟨makeCoordinator ["a"] 1, []⟩ []
    [.requestTask 0, .tick 11000000000, .requestTask 11000000000, .reportDone ⟨.mapTask, 0, 0⟩,
      .reportDone ⟨.mapTask, 0, 1⟩, .requestTask 12000000000, .reportDone ⟨.reduceTask, 0, 0⟩,
      .reportDone ⟨.reduceTask, 0, 0⟩, .requestTask 13000000000]

theorem attempts_fenced_lateReport : ∃ r, lateReport = some r ∧
    r.2.handed = [⟨.reduceTask, 0, 0⟩, ⟨.mapTask, 0, 1⟩, ⟨.mapTask, 0, 0⟩] ∧
    isDone r.2.c = true ∧ AttemptsFenced ["a"] 1 r.1 r.2 := by
  have hsome : lateReport.map (fun r => decide
      (r.2.handed = [⟨.reduceTask, 0, 0⟩, ⟨.mapTask, 0, 1⟩, ⟨.mapTask, 0, 0⟩] ∧
        isDone r.2.c = true)) = some true := by decide +kernel
  obtain ⟨r, hr, hd⟩ := Option.map_eq_some_iff.mp hsome
  obtain ⟨hhanded, hdone⟩ := of_decide_eq_true hd
  exact ⟨r, hr, hhanded, hdone, attempts_fenced (Run.replay (fun _ _ _ h => h) _ (.start rfl) hr)⟩

end main
end DistributedLabs.MrFencing
