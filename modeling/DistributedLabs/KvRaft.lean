import DistributedLabs.KvCalls

set_option autoImplicit false

/-!
# Clerks of the replicated store

`Clerk.Get` and `Clerk.Put` of `kvraft1/client.go` over the handlers of
`kvraft1/server.go`. The servers are one committed log of operations: an RPC adds at most
one entry, at any time after it was sent, whether it was answered, failed or was told
ErrWrongLeader; but an attempt adds none once a later attempt of the same call has one.
The state and the replies are what `DoOp` gives along the log.
-/
namespace DistributedLabs.KvRaft
open KvServer KvCalls Linearizability Runs

structure Entry (I K V : Type) where
  call : I
  attempt : ℕ
  op : Op K V

/-- A call of a method of the clerk. `sent` counts its RPCs; `waiting` is whether the last
    one is still out. -/
inductive Call (K V : Type) where
  | idle
  | running (op : Op K V) (resent : Bool) (sent : ℕ) (waiting : Bool)
  | returned (op : Op K V) (sent : ℕ) (result : Reply V)

structure World (I K V : Type) where
  -- newest first
  log : List (Entry I K V)
  calls : I → Call K V

inductive Label (I K V : Type) where
  | invoke (c : I) (op : Op K V)
  | send (c : I)
  /-- The entry of an attempt is committed. -/
  | commit (c : I) (attempt : ℕ)
  /-- `Call` returns false. -/
  | fail (c : I)
  | wrongLeader (c : I)
  /-- The reply of `DoOp` reaches the clerk. -/
  | answer (c : I)
deriving DecidableEq

variable {I K V : Type}

def errOf : Reply V → Err
  | .get _ err => err
  | .put err => err

def wrongLeaderReply : Op K V → Reply V
  | .get _ => .get none .errWrongLeader
  | .put _ _ _ => .put .errWrongLeader

def retry (op : Op K V) (sent : ℕ) : Call K V := .running op true sent false

def afterReply (op : Op K V) (resent : Bool) (sent : ℕ) (reply : Reply V) : Call K V :=
  if errOf reply = .errWrongLeader then retry op sent
  else .returned op sent (clerkResult resent reply)

def Call.attempts : Call K V → Option (Op K V × ℕ)
  | .idle => none
  | .running op _ sent _ => some (op, sent)
  | .returned op sent _ => some (op, sent)

section machine
variable [DecidableEq I] [DecidableEq K]

def kvAt : List (Entry I K V) → Store K V
  | [] => fun _ => none
  | e :: older => (doOp (kvAt older) e.op).1

/-- What `DoOp` returned for the entry of an attempt, if the log has it. -/
def replyAt (c : I) (attempt : ℕ) : List (Entry I K V) → Option (Reply V)
  | [] => none
  | e :: older =>
    if e.call = c ∧ e.attempt = attempt then some (doOp (kvAt older) e.op).2
    else replyAt c attempt older

def World.set (w : World I K V) (c : I) (call : Call K V) : World I K V :=
  { w with calls := Function.update w.calls c call }

def exec (w : World I K V) : Label I K V → Option (World I K V)
  | .invoke c op =>
    match w.calls c with
    | .idle => some (w.set c (.running op false 0 false))
    | _ => none
  | .send c =>
    match w.calls c with
    | .running op resent sent false => some (w.set c (.running op resent (sent + 1) true))
    | _ => none
  | .commit c attempt =>
    match (w.calls c).attempts with
    | some (op, sent) =>
      if 1 ≤ attempt ∧ attempt ≤ sent ∧ ∀ e ∈ w.log, e.call = c → e.attempt < attempt then
        some { w with log := ⟨c, attempt, op⟩ :: w.log }
      else none
    | none => none
  | .fail c =>
    match w.calls c with
    | .running op _ sent true => some (w.set c (retry op sent))
    | _ => none
  | .wrongLeader c =>
    match w.calls c with
    | .running op resent sent true =>
      some (w.set c (afterReply op resent sent (wrongLeaderReply op)))
    | _ => none
  | .answer c =>
    match w.calls c with
    | .running op resent sent true =>
      match replyAt c sent w.log with
      | some reply => some (w.set c (afterReply op resent sent reply))
      | none => none
    | _ => none

def kvraft (I K V : Type) [DecidableEq I] [DecidableEq K] :
    Machine (World I K V) (Label I K V) where
  init w := w = ⟨[], fun _ => .idle⟩
  step w l v := exec w l = some v

end machine

section observations

def visible (t : Transition (World I K V) (Label I K V)) : Option (Event I (Op K V) (Reply V)) :=
  match t.label with
  | .invoke c op => some (.invoke c op)
  | .answer c =>
    match t.post.calls c with
    | .returned _ _ result => some (.ret c result)
    | _ => none
  | _ => none

def history (tr : List (Transition (World I K V) (Label I K V))) :
    List (Event I (Op K V) (Reply V)) :=
  (tr.filterMap visible).reverse

theorem history_cons (t : Transition (World I K V) (Label I K V))
    (tr : List (Transition (World I K V) (Label I K V))) :
    history (t :: tr) = history tr ++ (visible t).toList := by
  unfold history
  rw [List.filterMap_cons]
  cases visible t <;> simp

variable [DecidableEq I] [DecidableEq K] [DecidableEq V]

def effects (c : I) : List (Entry I K V) → ℕ
  | [] => 0
  | e :: older => effects c older +
      if e.call = c ∧ (doOp (kvAt older) e.op).1 e.op.key ≠ kvAt older e.op.key then 1 else 0

end observations

section attempts
/-- The entries of call `c`: its operation by its attempts, in order and up to `sent`. -/
structure Ordered (log : List (Entry I K V)) (c : I) (op : Op K V) (sent : ℕ) : Prop where
  op : ∀ e ∈ log, e.call = c → e.op = op
  bound : ∀ e ∈ log, e.call = c → 1 ≤ e.attempt ∧ e.attempt ≤ sent
  order : log.Pairwise fun e e' => e.call = c → e'.call = c → e'.attempt < e.attempt

variable {log : List (Entry I K V)} {c : I} {op : Op K V} {sent : ℕ}

theorem Ordered.of_absent (hno : ∀ e ∈ log, e.call ≠ c) : Ordered log c op 0 where
  op e he hc := absurd hc (hno e he)
  bound e he hc := absurd hc (hno e he)
  order := List.pairwise_of_forall_mem_list fun e he _ _ hc => absurd hc (hno e he)

theorem Ordered.send (h : Ordered log c op sent) : Ordered log c op (sent + 1) where
  op := h.op
  bound e he hc := by
    have := h.bound e he hc
    omega
  order := h.order

theorem Ordered.tail {e : Entry I K V} (h : Ordered (e :: log) c op sent) :
    Ordered log c op sent where
  op x hx := h.op x (List.mem_cons_of_mem _ hx)
  bound x hx := h.bound x (List.mem_cons_of_mem _ hx)
  order := (List.pairwise_cons.mp h.order).2

theorem Ordered.cons_other {e : Entry I K V} (h : Ordered log c op sent) (he : e.call ≠ c) :
    Ordered (e :: log) c op sent where
  op x hx hc := by
    rcases List.mem_cons.mp hx with rfl | hx
    · exact absurd hc he
    · exact h.op x hx hc
  bound x hx hc := by
    rcases List.mem_cons.mp hx with rfl | hx
    · exact absurd hc he
    · exact h.bound x hx hc
  order := List.pairwise_cons.mpr ⟨fun _ _ hc => absurd hc he, h.order⟩

theorem Ordered.commit {attempt : ℕ} (h : Ordered log c op sent) (hlow : 1 ≤ attempt)
    (hhigh : attempt ≤ sent) (hnew : ∀ e ∈ log, e.call = c → e.attempt < attempt) :
    Ordered (⟨c, attempt, op⟩ :: log) c op sent where
  op x hx hc := by
    rcases List.mem_cons.mp hx with rfl | hx
    · rfl
    · exact h.op x hx hc
  bound x hx hc := by
    rcases List.mem_cons.mp hx with rfl | hx
    · exact ⟨hlow, hhigh⟩
    · exact h.bound x hx hc
  order := List.pairwise_cons.mpr ⟨fun e he _ hc => hnew e he hc, h.order⟩

end attempts

section entries
variable [DecidableEq I] [DecidableEq K]

def repliesOf (c : I) : List (Entry I K V) → List (Reply V)
  | [] => []
  | e :: older =>
    if e.call = c then (doOp (kvAt older) e.op).2 :: repliesOf c older else repliesOf c older

variable {log : List (Entry I K V)} {c : I} {op : Op K V} {sent : ℕ}

theorem replyAt_some {attempt : ℕ} {reply : Reply V} (h : replyAt c attempt log = some reply) :
    ∃ e ∈ log, e.call = c ∧ e.attempt = attempt := by
  induction log with
  | nil => cases h
  | cons e older ih =>
    unfold replyAt at h
    split_ifs at h with he
    · exact ⟨e, List.mem_cons_self, he⟩
    · obtain ⟨x, hx, hc⟩ := ih h
      exact ⟨x, List.mem_cons_of_mem _ hx, hc⟩

theorem repliesOf_ne_nil {x : Reply V} {xs : List (Reply V)} (h : repliesOf c log = x :: xs) :
    ∃ e ∈ log, e.call = c := by
  induction log with
  | nil => cases h
  | cons e older ih =>
    by_cases he : e.call = c
    · exact ⟨e, List.mem_cons_self, he⟩
    · rw [repliesOf, if_neg he] at h
      obtain ⟨y, hy, hc⟩ := ih h
      exact ⟨y, List.mem_cons_of_mem _ hy, hc⟩

theorem repliesOf_absent (hno : ∀ e ∈ log, e.call ≠ c) : repliesOf c log = [] := by
  cases hrep : repliesOf c log with
  | nil => rfl
  | cons x xs =>
    obtain ⟨e, he, hc⟩ := repliesOf_ne_nil hrep
    exact absurd hc (hno e he)

/-- The reply to the last attempt is the newest one; another one means an earlier attempt. -/
theorem Ordered.newest {reply : Reply V} (h : Ordered log c op sent)
    (hr : replyAt c sent log = some reply) :
    ∃ older, repliesOf c log = reply :: older ∧ (older = [] ∨ 1 < sent) := by
  induction log with
  | nil => cases hr
  | cons e log ih =>
    by_cases he : e.call = c
    · have hlt := (List.pairwise_cons.mp h.order).1
      have hbound := h.bound e List.mem_cons_self he
      have hat : e.attempt = sent := by
        by_contra hne
        rw [replyAt, if_neg fun hh => hne hh.2] at hr
        obtain ⟨x, hx, hxc, hxa⟩ := replyAt_some hr
        have := hlt x hx he hxc
        omega
      rw [replyAt, if_pos ⟨he, hat⟩] at hr
      rw [repliesOf, if_pos he, Option.some.inj hr]
      refine ⟨_, rfl, ?_⟩
      cases hrest : repliesOf c log with
      | nil => exact .inl rfl
      | cons y ys =>
        obtain ⟨x, hx, hxc⟩ := repliesOf_ne_nil hrest
        have := hlt x hx he hxc
        have := h.bound x (List.mem_cons_of_mem _ hx) hxc
        right
        omega
    · rw [replyAt, if_neg fun hh => he hh.1] at hr
      rw [repliesOf, if_neg he]
      exact ih h.tail hr

theorem errOf_doOp (kv : Store K V) (op : Op K V) : errOf (doOp kv op).2 ≠ .errWrongLeader := by
  cases op with
  | get key =>
    change (KvServer.get kv key).2 ≠ _
    rcases (get_spec kv key).2 with ⟨_, h⟩ | ⟨_, h⟩ <;> simp [h]
  | put key value version =>
    rcases put_cases kv key value version with ⟨_, hput⟩ | ⟨_, _, hput⟩ | ⟨_, _, hput⟩ <;>
      simp [doOp, hput, errOf]

theorem errOf_replyAt {attempt : ℕ} {reply : Reply V} (h : replyAt c attempt log = some reply) :
    errOf reply ≠ .errWrongLeader := by
  induction log with
  | nil => cases h
  | cons e older ih =>
    unfold replyAt at h
    split_ifs at h
    · cases h
      exact errOf_doOp _ _
    · exact ih h

theorem effects_eq [DecidableEq V] (h : Ordered log c op sent) :
    effects c log = Retries.effects (kvService K V) op (repliesOf c log) := by
  induction log with
  | nil => rfl
  | cons e log ih =>
    by_cases he : e.call = c
    · have hop := h.op e List.mem_cons_self he
      subst hop
      rw [effects, repliesOf, if_pos he, Retries.effects_cons, ih h.tail]
      simp only [he, true_and, doOp_key_ne_iff]
    · rw [effects, repliesOf, if_neg he, if_neg fun hh => he hh.1, ih h.tail, Nat.add_zero]

end entries

section simulation
variable [DecidableEq I] [DecidableEq K]

/-- How a call looks as one that is executed again until it is answered. -/
inductive Rel (log : List (Entry I K V)) (c : I) :
    Call K V → Retries.Status (Op K V) (Reply V) (Reply V) → Prop where
  | idle (h : ∀ e ∈ log, e.call ≠ c) : Rel log c .idle .idle
  | running (op : Op K V) (resent : Bool) (sent : ℕ) (waiting : Bool)
      (ordered : Ordered log c op sent)
      (hr : (if waiting then 1 else 0) < sent → resent = true) :
      Rel log c (.running op resent sent waiting) (.active op (repliesOf c log))
  | returned (op : Op K V) (sent : ℕ) (result : Reply V) (ordered : Ordered log c op sent)
      (last : ∃ e ∈ log, e.call = c ∧ e.attempt = sent) :
      Rel log c (.returned op sent result) (.returned op (repliesOf c log) result)

structure Sim (tr : List (Transition (World I K V) (Label I K V))) (w : World I K V)
    (a : Retries.World (Store K V) I (Op K V) (Reply V) (Reply V)) : Prop where
  kv : a.state = kvAt w.log
  history : a.history = history tr
  calls : ∀ c, Rel w.log c (w.calls c) (a.calls c)

variable {tr : List (Transition (World I K V) (Label I K V))} {w v : World I K V}
  {a : Retries.World (Store K V) I (Op K V) (Reply V) (Reply V)} {l : Label I K V}

theorem Sim.move (hs : Sim tr w a) (c : I) {x : Call K V}
    {y : Retries.Status (Op K V) (Reply V) (Reply V)} {e : Option (Event I (Op K V) (Reply V))}
    (hv : visible ⟨w, l, w.set c x⟩ = e) (hxy : Rel w.log c x y) :
    Sim (⟨w, l, w.set c x⟩ :: tr) (w.set c x)
      ⟨a.state, Function.update a.calls c y, a.history ++ e.toList⟩ where
  kv := hs.kv
  history := by rw [history_cons, hv, hs.history]
  calls d := by
    by_cases hd : d = c
    · subst hd
      simpa [World.set] using hxy
    · simpa [World.set, hd] using hs.calls d

theorem Sim.stutter (hs : Sim tr w a) (c : I) {x : Call K V}
    (hv : visible ⟨w, l, w.set c x⟩ = none) (hx : Rel w.log c x (a.calls c)) :
    Sim (⟨w, l, w.set c x⟩ :: tr) (w.set c x) a := by
  have h := hs.move c hv hx
  rwa [Function.update_eq_self, Option.toList_none, List.append_nil] at h

theorem Rel.cons_other {log : List (Entry I K V)} {c : I} {e : Entry I K V} {x : Call K V}
    {y : Retries.Status (Op K V) (Reply V) (Reply V)} (h : Rel log c x y) (he : e.call ≠ c) :
    Rel (e :: log) c x y := by
  have hrep : repliesOf c log = repliesOf c (e :: log) := by rw [repliesOf, if_neg he]
  cases h with
  | idle hno =>
    refine .idle fun z hz => ?_
    rcases List.mem_cons.mp hz with rfl | hz
    · exact he
    · exact hno z hz
  | running op resent sent waiting ordered hr =>
    rw [hrep]
    exact .running op resent sent waiting (ordered.cons_other he) hr
  | returned op sent result ordered last =>
    rw [hrep]
    obtain ⟨z, hz, hc⟩ := last
    exact .returned op sent result (ordered.cons_other he) ⟨z, List.mem_cons_of_mem _ hz, hc⟩

/-- An entry is committed: one more execution of its call, which cannot have returned. -/
theorem sim_commit (hs : Sim tr w a) {c : I} {attempt : ℕ}
    (h : exec w (.commit c attempt) = some v) :
    ∃ b, (b = a ∨ ∃ l', Retries.exec (kvService K V) a l' = some b) ∧
      Sim (⟨w, .commit c attempt, v⟩ :: tr) v b := by
  dsimp only [exec] at h
  have hrel := hs.calls c
  generalize hac : a.calls c = y at hrel
  generalize hwc : w.calls c = x at hrel h
  cases hrel with
  | idle => cases h
  | returned op sent result ordered last =>
    dsimp only [Call.attempts] at h
    split_ifs at h with hok
    obtain ⟨e, he, hc, hat⟩ := last
    have := hok.2.2 e he hc
    omega
  | running op resent sent waiting ordered hr =>
    dsimp only [Call.attempts] at h
    split_ifs at h with hok
    cases h
    have hrun : Retries.exec (kvService K V) a (.run c) = some { a with
        state := (doOp (kvAt w.log) op).1
        calls := Function.update a.calls c
          (.active op ((doOp (kvAt w.log) op).2 :: repliesOf c w.log)) } := by
      simp [Retries.exec, hac, hs.kv, kvService]
    refine ⟨_, .inr ⟨.run c, hrun⟩, rfl, ?_, fun d => ?_⟩
    · simp [history_cons, visible, hs.history]
    · by_cases hd : d = c
      · subst hd
        have hrep : (doOp (kvAt w.log) op).2 :: repliesOf d w.log =
            repliesOf d (⟨d, attempt, op⟩ :: w.log) := by
          rw [repliesOf, if_pos rfl]
        simp only [hwc, Function.update_self, hrep]
        exact .running op resent sent waiting (ordered.commit hok.1 hok.2.1 hok.2.2) hr
      · simp only [Function.update_of_ne hd]
        exact (hs.calls d).cons_other fun hcd => hd hcd.symm

theorem Sim.absent (hs : Sim tr w a) {c : I} (hc : w.calls c = .idle) :
    a.calls c = .idle ∧ ∀ e ∈ w.log, e.call ≠ c := by
  have hrel := hs.calls c
  rw [hc] at hrel
  generalize a.calls c = y at hrel ⊢
  cases hrel with
  | idle hno => exact ⟨rfl, hno⟩

theorem Sim.running (hs : Sim tr w a) {c : I} {op : Op K V} {resent : Bool} {sent : ℕ}
    {waiting : Bool} (hc : w.calls c = .running op resent sent waiting) :
    a.calls c = .active op (repliesOf c w.log) ∧ Ordered w.log c op sent ∧
      ((if waiting then 1 else 0) < sent → resent = true) := by
  have hrel := hs.calls c
  rw [hc] at hrel
  generalize a.calls c = y at hrel ⊢
  cases hrel with
  | running _ _ _ _ ordered hr => exact ⟨rfl, ordered, hr⟩

theorem Sim.retry (hs : Sim tr w a) {c : I} {op : Op K V} {resent : Bool} {sent : ℕ}
    {waiting : Bool} (hc : w.calls c = .running op resent sent waiting)
    (hv : visible ⟨w, l, w.set c (retry op sent)⟩ = none) :
    Sim (⟨w, l, w.set c (retry op sent)⟩ :: tr) (w.set c (retry op sent)) a := by
  obtain ⟨hac, ordered, _⟩ := hs.running hc
  refine hs.stutter c hv ?_
  rw [hac]
  exact .running op true sent false ordered fun _ => rfl

theorem sim_step (hs : Sim tr w a) (h : exec w l = some v) :
    ∃ b, (b = a ∨ ∃ l', Retries.exec (kvService K V) a l' = some b) ∧
      Sim (⟨w, l, v⟩ :: tr) v b := by
  cases l with
  | invoke c op =>
    dsimp only [exec] at h
    split at h
    case h_2 => cases h
    case h_1 hc =>
      cases h
      obtain ⟨hac, hno⟩ := hs.absent hc
      refine ⟨_, .inr ⟨.invoke c op, ?_⟩, hs.move (l := .invoke c op)
        (e := some (.invoke c op)) c rfl (.running op false 0 false (.of_absent hno) (by simp))⟩
      simp [Retries.exec, hac, repliesOf_absent hno]
  | send c =>
    dsimp only [exec] at h
    split at h
    case h_2 => cases h
    case h_1 op resent sent hc =>
      cases h
      obtain ⟨hac, ordered, hr⟩ := hs.running hc
      refine ⟨a, .inl rfl, hs.stutter (l := .send c) c rfl ?_⟩
      rw [hac]
      exact .running op resent (sent + 1) true ordered.send (by simpa using hr)
  | commit c attempt => exact sim_commit hs h
  | fail c =>
    dsimp only [exec] at h
    split at h
    case h_2 => cases h
    case h_1 op resent sent hc =>
      cases h
      exact ⟨a, .inl rfl, hs.retry (l := .fail c) hc rfl⟩
  | wrongLeader c =>
    dsimp only [exec] at h
    split at h
    case h_2 => cases h
    case h_1 op resent sent hc =>
      cases h
      have hretry : afterReply op resent sent (wrongLeaderReply op) = KvRaft.retry op sent := by
        cases op <;> rfl
      rw [hretry]
      exact ⟨a, .inl rfl, hs.retry (l := .wrongLeader c) hc rfl⟩
  | answer c =>
    dsimp only [exec] at h
    split at h
    case h_2 => cases h
    case h_1 op resent sent hc =>
      split at h
      case h_2 => cases h
      case h_1 reply hreply =>
        cases h
        have hret : afterReply op resent sent reply =
            .returned op sent (clerkResult resent reply) := if_neg (errOf_replyAt hreply)
        rw [hret]
        obtain ⟨hac, ordered, hr⟩ := hs.running hc
        obtain ⟨older, hrep, hold⟩ := ordered.newest hreply
        refine ⟨_, .inr ⟨.ret c resent, ?_⟩,
          hs.move (l := .answer c) (e := some (.ret c (clerkResult resent reply))) c
            (by simp [visible, World.set]) (.returned op sent _ ordered (replyAt_some hreply))⟩
        -- an older execution comes from an earlier attempt, and after one the call is `resent`
        have hgo : (older.isEmpty || resent) = true := by
          rcases hold with rfl | hlt
          · rfl
          · rw [hr (by simpa using hlt), Bool.or_true]
        simp [Retries.exec, hac, hrep, hgo, kvService]

theorem simulates (run : Run (kvraft I K V) tr w) :
    ∃ tr' a, Run (Retries.calls I (kvService K V)) tr' a ∧ Sim tr w a := by
  refine run.simulate (R := Sim) ?_ fun tr s l u a hs h => sim_step hs h
  rintro _ rfl
  exact ⟨_, rfl, rfl, rfl, fun c => .idle nofun⟩

variable [DecidableEq V]

/-- Every `Clerk.Put` that has returned told the truth about its entries in the log, also
    about those committed after it returned. -/
def PutsTruthful (w : World I K V) : Prop :=
  ∀ c key value version sent err, w.calls c = .returned (.put key value version) sent (.put err) →
    Truthful err (effects c w.log)

theorem kvraft_linearizable (run : Run (kvraft I K V) tr w) :
    Linearizable (versionedMap K V) (history tr) ∧ PutsTruthful w := by
  obtain ⟨tr', a, hrun, hs⟩ := simulates run
  constructor
  · rw [← hs.history]
    have : Nonempty (Reply V) := ⟨.put .ok⟩
    exact Retries.linearizable kv_lawful hrun
  · intro c key value version sent err hc
    have hrel := hs.calls c
    rw [hc] at hrel
    generalize hac : a.calls c = y at hrel
    cases hrel with
    | returned _ _ _ ordered last =>
      rw [effects_eq ordered]
      exact truthful_of_outcome (Retries.outcome kv_lawful hrun hac)

/-- The first attempt of a `Put` is told ErrWrongLeader and commits after the second was
    sent; the second one then finds the version moved. Another `Put` and a `Get` follow. -/
def lateCommit : Option (List (Transition (World ℕ ℕ ℕ) (Label ℕ ℕ ℕ)) × World ℕ ℕ ℕ) :=
  replay exec ⟨[], fun _ => .idle⟩ []
    [.invoke 0 (.put 5 70 0), .send 0, .wrongLeader 0, .send 0, .commit 0 1, .commit 0 2, .answer 0,
      .invoke 1 (.put 5 80 1), .send 1, .commit 1 1, .answer 1, .invoke 2 (.get 5), .send 2, .fail 2,
      .send 2, .commit 2 2, .answer 2]

theorem kvraft_linearizable_lateCommit : ∃ r, lateCommit = some r ∧
    history r.1 = [.invoke 0 (.put 5 70 0), .ret 0 (.put .errMaybe), .invoke 1 (.put 5 80 1),
      .ret 1 (.put .ok), .invoke 2 (.get 5), .ret 2 (.get (some ⟨80, 2⟩) .ok)] ∧
    effects 0 r.2.log = 1 ∧ Linearizable (versionedMap ℕ ℕ) (history r.1) ∧ PutsTruthful r.2 := by
  have hsome : lateCommit.map (fun r => decide (history r.1 =
      [.invoke 0 (.put 5 70 0), .ret 0 (.put .errMaybe), .invoke 1 (.put 5 80 1),
        .ret 1 (.put .ok), .invoke 2 (.get 5), .ret 2 (.get (some ⟨80, 2⟩) .ok)] ∧
      effects 0 r.2.log = 1)) = some true := by decide +kernel
  obtain ⟨r, hr, hd⟩ := Option.map_eq_some_iff.mp hsome
  obtain ⟨hhist, heff⟩ := of_decide_eq_true hd
  exact ⟨r, hr, hhist, heff, kvraft_linearizable (Run.replay (fun _ _ _ h => h) _ (.start rfl) hr)⟩

end simulation
end DistributedLabs.KvRaft
