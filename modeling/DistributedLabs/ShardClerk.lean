import DistributedLabs.Migration

set_option autoImplicit false

/-!
# Clerks of the sharded store

`Clerk.Put` of `shardkv1/client.go` over `PutOnce` of `shardkv1/shardgrp/client.go`. `kv`
is the state of the group that owns each shard; while a shard moves it may be in any
state, and its data move with it. An RPC adds at most one operation to the owner's order:
one that was not answered may do so later, but not after a later one of the same call.
-/
namespace DistributedLabs.ShardClerk

open Handoff KvServer Migration Runs ShardCfg ShardServer

/-- A call of `Clerk.Put`. `pending` counts the RPCs without answer whose operation may
    still be committed, `applied` those that changed the store; the code reads neither. -/
structure PutCall where
  args : PutArgs
  sent : Bool
  pending : ℕ
  applied : ℕ

/-- A clerk is before `groupFor`, or inside `PutOnce` with `left` replicas to try. -/
inductive Clerk where
  | idle
  | routing (call : PutCall)
  | passing (call : PutCall) (left : ℕ)
  | returned (err : Err) (applied : ℕ)

def afterPutOnce (call : PutCall) (err : Err) : Clerk :=
  if err = .errWrongGroup ∨ err = .errWrongLeader then .routing { call with sent := true }
  else if err = .errVersion ∧ call.sent then .returned .errMaybe call.applied
  else .returned err call.applied

def nextReplica (call : PutCall) : ℕ → Clerk
  | 0 => afterPutOnce call .errWrongLeader
  | left + 1 => .passing call (left + 1)

structure World (I : Type) where
  kv : Shards
  clerks : I → Clerk

inductive Label (I : Type) where
  | put (c : I) (args : PutArgs)
  | route (c : I) (replicas : ℕ)
  /-- An RPC whose reply is lost, or is ErrWrongLeader. -/
  | unanswered (c : I)
  | answered (c : I)
  /-- The operation of an RPC without answer is committed; `later` of them came after it. -/
  | commit (c : I) (later : ℕ)
  | move (s : Tshid) (state : Hold)

def submit (kv : Shards) (call : PutCall) : Shards × Err :=
  doPut kv call.args.key call.args.value call.args.version

def PutCall.committed (call : PutCall) (err : Err) (later : ℕ) : PutCall :=
  { call with
    pending := later
    applied := if err = .ok then call.applied + 1 else call.applied }

variable {I : Type} [DecidableEq I]

def World.set (w : World I) (c : I) (clerk : Clerk) : World I :=
  { w with clerks := Function.update w.clerks c clerk }

def Clerk.call : Clerk → Option (PutCall × (PutCall → Clerk))
  | .routing call => some (call, .routing)
  | .passing call left => some (call, fun k => .passing k left)
  | _ => none

def exec (w : World I) : Label I → Option (World I)
  | .put c args =>
    if (w.clerks c).call.isNone then some (w.set c (.routing ⟨args, false, 0, 0⟩)) else none
  | .route c replicas =>
    match w.clerks c with
    | .routing call => if 0 < replicas then some (w.set c (.passing call replicas)) else none
    | _ => none
  | .unanswered c =>
    match w.clerks c with
    | .passing call (left + 1) =>
      some (w.set c (nextReplica { call with pending := call.pending + 1 } left))
    | _ => none
  | .answered c =>
    match w.clerks c with
    | .passing call (_ + 1) =>
      let r := submit w.kv call
      some { w.set c (afterPutOnce (call.committed r.2 0) r.2) with kv := r.1 }
    | _ => none
  | .commit c later =>
    match (w.clerks c).call with
    | some (call, resume) =>
      if later < call.pending then
        let r := submit w.kv call
        some { w.set c (resume (call.committed r.2 later)) with kv := r.1 }
      else none
    | none => none
  | .move s state =>
    some { w with kv := Function.update w.kv s ⟨(w.kv s).data, state, (w.kv s).num⟩ }

def clerks (I : Type) [DecidableEq I] : Machine (World I) (Label I) where
  init w := w = ⟨initShards gid1, fun _ => .idle⟩
  step w l v := exec w l = some v

section Store

def entry (kv : Shards) (key : String) : Option (KvEntry String) := (kv (key2Shard key)).data key

theorem doPut_ok {kv : Shards} {key value : String} {version : ℕ}
    (h : (doPut kv key value version).2 = .ok) :
    versionOf (entry kv key) = version ∧
      entry (doPut kv key value version).1 key = some ⟨value, version + 1⟩ := by
  rcases doPut_spec kv key value version with ⟨herr, -⟩ | ⟨-, -, d, hput, hkv⟩
  · exact absurd h herr
  · obtain ⟨hm, hd⟩ := put_ok hput
    refine ⟨hm.versionOf, ?_⟩
    rw [entry, hkv, Function.update_self, hd]
    exact Function.update_self _ _ _

theorem entry_doPut_le (kv : Shards) (key value : String) (version : ℕ) (k : String) :
    versionOf (entry kv k) ≤ versionOf (entry (doPut kv key value version).1 k) := by
  by_cases hk : k = key
  · subst hk
    rcases doPut_spec kv k value version with ⟨-, hkv⟩ | ⟨-, hok, -⟩
    · rw [hkv]
    · obtain ⟨hbefore, hafter⟩ := doPut_ok hok
      rw [hbefore, hafter]
      exact Nat.le_succ _
  · rcases doPut_spec kv key value version with ⟨-, hkv⟩ | ⟨-, -, d, hput, hkv⟩
    · rw [hkv]
    · have hsame : entry (doPut kv key value version).1 k = entry kv k := by
        unfold entry
        rw [hkv, (put_ok hput).2]
        by_cases hs : key2Shard k = key2Shard key
        · rw [hs, Function.update_self]
          exact Function.update_of_ne hk _ _
        · rw [Function.update_of_ne hs]
      rw [hsame]

theorem entry_move (kv : Shards) (s : Tshid) (state : Hold) (k : String) :
    entry (Function.update kv s ⟨(kv s).data, state, (kv s).num⟩) k = entry kv k := by
  unfold entry
  by_cases hk : key2Shard k = s
  · subst hk
    rw [Function.update_self]
  · rw [Function.update_of_ne hk]

/-- A group that serves the shard refuses a version that is past. -/
theorem doPut_past {kv : Shards} {key value : String} {version : ℕ}
    (hs : (kv (key2Shard key)).state = .serving) (hv : version < versionOf (entry kv key)) :
    (doPut kv key value version).2 = .errVersion := by
  unfold entry at hv
  unfold doPut
  simp only [hs, ne_eq, not_true_eq_false, if_false]
  cases hd : (kv (key2Shard key)).data key with
  | none =>
    rw [hd] at hv
    exact absurd hv (Nat.not_lt_zero _)
  | some e =>
    rw [hd] at hv
    have hne : version ≠ e.version := Nat.ne_of_lt hv
    simp only [hne, not_false_eq_true, if_true]

theorem doPut_noKey {kv : Shards} {key value : String} {version : ℕ}
    (h : (doPut kv key value version).2 = .errNoKey) : entry kv key = none := by
  unfold doPut at h
  by_cases hs : (kv (key2Shard key)).state = .serving
  · simp only [hs, ne_eq, not_true_eq_false, if_false] at h
    cases hd : (kv (key2Shard key)).data key with
    | none => exact hd
    | some e =>
      rw [hd] at h
      by_cases hv : version = e.version
      · simp only [hv, not_true_eq_false, if_false] at h
        cases h
      · simp only [hv, not_false_eq_true, if_true] at h
        cases h
  · simp only [hs, ne_eq, not_false_eq_true, if_true] at h
    cases h

theorem doPut_err (kv : Shards) (key value : String) (version : ℕ) :
    (doPut kv key value version).2 = .ok ∨ (doPut kv key value version).2 = .errNoKey ∨
      (doPut kv key value version).2 = .errVersion ∨
      (doPut kv key value version).2 = .errWrongGroup := by
  unfold doPut
  grind

end Store

/-- An operation of the call changed the store at most once, and its version is past
    since. -/
def CallOk (kv : Shards) (call : PutCall) : Prop :=
  call.applied = 0 ∨
    call.applied = 1 ∧ call.args.version < versionOf (entry kv call.args.key)

def ClerkOk (kv : Shards) : Clerk → Prop
  | .routing call | .passing call _ => CallOk kv call
  | _ => True

section Calls

variable {kv kv' : Shards} {call : PutCall}

theorem CallOk.later (h : CallOk kv call)
    (hle : ∀ k, versionOf (entry kv k) ≤ versionOf (entry kv' k)) : CallOk kv' call := by
  rcases h with h | ⟨h, hv⟩
  · exact .inl h
  · exact .inr ⟨h, lt_of_lt_of_le hv (hle _)⟩

theorem ClerkOk.later {clerk : Clerk} (h : ClerkOk kv clerk)
    (hle : ∀ k, versionOf (entry kv k) ≤ versionOf (entry kv' k)) : ClerkOk kv' clerk := by
  cases clerk with
  | routing call => exact CallOk.later h hle
  | passing call left => exact CallOk.later h hle
  | _ => trivial

/-- An operation that is accepted is the first of its call. -/
theorem CallOk.applied_zero (h : CallOk kv call) (hok : (submit kv call).2 = .ok) :
    call.applied = 0 := by
  rcases h with h | ⟨-, hv⟩
  · exact h
  · have hcurrent := (doPut_ok hok).1
    omega

theorem CallOk.committed (h : CallOk kv call) (later : ℕ) :
    CallOk (submit kv call).1 (call.committed (submit kv call).2 later) := by
  by_cases hok : (submit kv call).2 = .ok
  · refine .inr ⟨?_, ?_⟩
    · simp only [PutCall.committed, hok, if_true, h.applied_zero hok]
    · have hafter := (doPut_ok hok).2
      change call.args.version < versionOf (entry (doPut kv _ _ _).1 call.args.key)
      rw [hafter]
      exact Nat.lt_succ_self _
  · have hsame : (call.committed (submit kv call).2 later).applied = call.applied := if_neg hok
    unfold CallOk
    rw [hsame]
    exact h.later (fun k => entry_doPut_le kv _ _ _ k)

theorem afterPutOnce_ok (h : CallOk kv call) (err : Err) : ClerkOk kv (afterPutOnce call err) := by
  unfold afterPutOnce
  split
  · exact h
  · split
    · trivial
    · trivial

theorem nextReplica_ok (h : CallOk kv call) (left : ℕ) : ClerkOk kv (nextReplica call left) := by
  cases left with
  | zero => exact afterPutOnce_ok h _
  | succ left => exact h

theorem Clerk.call_cases {clerk : Clerk} {resume : PutCall → Clerk}
    (h : clerk.call = some (call, resume)) : clerk = .routing call ∧ resume = .routing ∨
      ∃ left, clerk = .passing call left ∧ resume = fun k => .passing k left := by
  cases clerk with
  | routing k =>
    cases h
    exact .inl ⟨rfl, rfl⟩
  | passing k left =>
    cases h
    exact .inr ⟨left, rfl, rfl⟩
  | idle => cases h
  | returned err n => cases h

/-- While a clerk waits for the last replica of a pass it has not returned. -/
theorem nextReplica_returned {left : ℕ} {err : Err} {n : ℕ} :
    nextReplica call left ≠ .returned err n := by
  cases left with
  | zero =>
    unfold nextReplica afterPutOnce
    rw [if_pos (.inr rfl)]
    exact Clerk.noConfusion
  | succ left => exact Clerk.noConfusion

end Calls

section Steps

variable {I : Type} [DecidableEq I] {w v : World I}

inductive Stepped (w : World I) : Label I → World I → Prop where
  | put (c : I) (args : PutArgs) :
      Stepped w (.put c args) (w.set c (.routing ⟨args, false, 0, 0⟩))
  | route (c : I) (replicas : ℕ) (call : PutCall) (hc : w.clerks c = .routing call) :
      Stepped w (.route c replicas) (w.set c (.passing call replicas))
  | unanswered (c : I) (call : PutCall) (left : ℕ) (hc : w.clerks c = .passing call (left + 1)) :
      Stepped w (.unanswered c)
        (w.set c (nextReplica { call with pending := call.pending + 1 } left))
  | answered (c : I) (call : PutCall) (left : ℕ) (hc : w.clerks c = .passing call (left + 1)) :
      Stepped w (.answered c) { w.set c (afterPutOnce (call.committed (submit w.kv call).2 0)
        (submit w.kv call).2) with kv := (submit w.kv call).1 }
  | commit (c : I) (later : ℕ) (call : PutCall) (resume : PutCall → Clerk)
      (hc : (w.clerks c).call = some (call, resume)) :
      Stepped w (.commit c later) { w.set c (resume (call.committed (submit w.kv call).2 later)) with
        kv := (submit w.kv call).1 }
  | move (s : Tshid) (state : Hold) : Stepped w (.move s state)
      { w with kv := Function.update w.kv s ⟨(w.kv s).data, state, (w.kv s).num⟩ }

theorem exec_stepped {l : Label I} (hs : exec w l = some v) : Stepped w l v := by
  cases l with
  | put c args =>
    obtain ⟨-, hs⟩ := Option.ite_none_right_eq_some.mp hs
    cases hs
    exact .put c args
  | route c replicas =>
    unfold exec at hs
    simp only at hs
    split at hs
    · obtain ⟨-, hs⟩ := Option.ite_none_right_eq_some.mp hs
      cases hs
      exact .route c replicas _ ‹_›
    · cases hs
  | unanswered c =>
    unfold exec at hs
    simp only at hs
    split at hs
    · cases hs
      exact .unanswered c _ _ ‹_›
    · cases hs
  | answered c =>
    unfold exec at hs
    simp only at hs
    split at hs
    · cases hs
      exact .answered c _ _ ‹_›
    · cases hs
  | commit c later =>
    unfold exec at hs
    simp only at hs
    split at hs
    · obtain ⟨-, hs⟩ := Option.ite_none_right_eq_some.mp hs
      cases hs
      exact .commit c later _ _ ‹_›
    · cases hs
  | move s state =>
    cases hs
    exact .move s state

def Inv (w : World I) : Prop := ∀ c, ClerkOk w.kv (w.clerks c)

omit [DecidableEq I] in
theorem Inv.clerk (h : Inv w) {c : I} {clerk : Clerk} (hc : w.clerks c = clerk) :
    ClerkOk w.kv clerk := hc ▸ h c

omit [DecidableEq I] in
theorem Inv.call (h : Inv w) {c : I} {call : PutCall} {resume : PutCall → Clerk}
    (hc : (w.clerks c).call = some (call, resume)) :
    CallOk w.kv call ∧ ∀ kv k, CallOk kv k → ClerkOk kv (resume k) := by
  have hok := h c
  rcases Clerk.call_cases hc with ⟨hclerk, rfl⟩ | ⟨left, hclerk, rfl⟩
  · rw [hclerk] at hok
    exact ⟨hok, fun _ _ hk => hk⟩
  · rw [hclerk] at hok
    exact ⟨hok, fun _ _ hk => hk⟩

theorem Inv.set (h : Inv w) {c : I} {clerk : Clerk} {kv : Shards}
    (hle : ∀ k, versionOf (entry w.kv k) ≤ versionOf (entry kv k)) (hc : ClerkOk kv clerk) :
    Inv { w.set c clerk with kv := kv } := by
  intro d
  change ClerkOk kv (Function.update w.clerks c clerk d)
  rw [Function.update_apply]
  split
  · exact hc
  · exact (h d).later hle

theorem exec_inv (h : Inv w) {l : Label I} (hs : exec w l = some v) : Inv v := by
  have still (k : String) : versionOf (entry w.kv k) ≤ versionOf (entry w.kv k) := le_refl _
  cases exec_stepped hs with
  | put c args => exact h.set still (.inl rfl)
  | route c replicas call hc =>
    have hok : CallOk w.kv call := h.clerk hc
    have hpassing : ClerkOk w.kv (.passing call replicas) := hok
    exact h.set still hpassing
  | unanswered c call left hc =>
    have hmore : CallOk w.kv { call with pending := call.pending + 1 } := h.clerk hc
    exact h.set still (nextReplica_ok hmore left)
  | answered c call left hc =>
    have hok : CallOk w.kv call := h.clerk hc
    exact h.set (fun k => entry_doPut_le _ _ _ _ k) (afterPutOnce_ok (hok.committed 0) _)
  | commit c later call resume hc =>
    obtain ⟨hok, hresume⟩ := h.call hc
    exact h.set (fun k => entry_doPut_le _ _ _ _ k) (hresume _ _ (hok.committed later))
  | move s state =>
    intro c
    exact (h c).later (fun k => le_of_eq (congrArg versionOf (entry_move w.kv s state k).symm))

theorem clerks_inv {tr : List (Transition (World I) (Label I))} (run : Run (clerks I) tr w) :
    Inv w := by
  refine run.invariant (I := fun w => Inv w) ?_ (fun s l u hinv hstep => exec_inv hinv hstep)
  rintro s rfl c
  trivial

end Steps

section Outcomes

variable {I : Type} [DecidableEq I] {w v : World I} {tr : List (Transition (World I) (Label I))}

/-- What the result of `Clerk.Put` says of the number of its operations that changed the
    store. -/
def Truthful (err : Err) (applied : ℕ) : Prop :=
  (err = .errVersion ∨ err = .errNoKey → applied = 0) ∧ (err = .ok → applied = 1) ∧
    (err = .errMaybe → applied ≤ 1)

theorem truthful_ok (n : ℕ) : Truthful .ok n ↔ n = 1 := by
  simp [Truthful]

theorem truthful_errNoKey (n : ℕ) : Truthful .errNoKey n ↔ n = 0 := by
  simp [Truthful]

theorem truthful_errVersion (n : ℕ) : Truthful .errVersion n ↔ n = 0 := by
  simp [Truthful]

theorem truthful_errMaybe (n : ℕ) : Truthful .errMaybe n ↔ n ≤ 1 := by
  simp [Truthful]

def AllTruthful (tr : List (Transition (World I) (Label I))) : Prop :=
  ∀ t ∈ tr, ∀ c err n, t.post.clerks c = .returned err n → Truthful err n

/-- A replica of the group that serves the shard answers an RPC of the first pass of a
    call, after one without answer of that pass took effect. -/
def Unaware (t : Transition (World I) (Label I)) : Prop :=
  ∃ c call left, t.label = .answered c ∧ t.pre.clerks c = .passing call (left + 1) ∧
    (t.pre.kv (key2Shard call.args.key)).state = .serving ∧ call.sent = false ∧ 0 < call.applied

theorem answered_truthful {kv : Shards} {call : PutCall} (h : CallOk kv call)
    (haware : call.sent = true ∨ call.applied = 0) {err : Err} {n : ℕ}
    (hret : afterPutOnce (call.committed (submit kv call).2 0) (submit kv call).2 =
      .returned err n) : Truthful err n := by
  have hmost := h.committed 0
  unfold afterPutOnce at hret
  rcases doPut_err kv call.args.key call.args.value call.args.version with he | he | he | he
  · -- accepted: the first operation of the call that is
    have hok : (submit kv call).2 = .ok := he
    rw [hok] at hret
    simp only [PutCall.committed, if_true, h.applied_zero hok] at hret
    cases hret
    exact (truthful_ok _).mpr rfl
  · -- no key: none of the operations can have been accepted
    have hnone : (submit kv call).2 = .errNoKey := he
    have hzero : call.applied = 0 := by
      rcases h with h | ⟨-, hv⟩
      · exact h
      · rw [doPut_noKey he] at hv
        exact absurd hv (Nat.not_lt_zero _)
    rw [hnone] at hret
    simp only [PutCall.committed, hzero] at hret
    cases hret
    exact (truthful_errNoKey _).mpr rfl
  · have hversion : (submit kv call).2 = .errVersion := he
    rw [hversion] at hret hmost
    have hle : (call.committed .errVersion 0).applied ≤ 1 := by
      rcases hmost with hm | ⟨hm, -⟩ <;> omega
    cases hsent : call.sent with
    | true =>
      simp only [PutCall.committed, hsent] at hret hle
      cases hret
      exact (truthful_errMaybe _).mpr hle
    | false =>
      have hzero : call.applied = 0 := by
        rcases haware with haware | haware
        · rw [hsent] at haware
          cases haware
        · exact haware
      simp only [PutCall.committed, hsent, hzero] at hret
      cases hret
      exact (truthful_errVersion _).mpr rfl
  · have hgroup : (submit kv call).2 = .errWrongGroup := he
    rw [hgroup] at hret
    simp only [PutCall.committed] at hret
    cases hret

theorem returned_of_update {clerks : I → Clerk} {c d : I} {x y : Clerk}
    (h : Function.update clerks d x c = y) (hx : x ≠ y) : clerks c = y := by
  by_cases hc : c = d
  · subst hc
    rw [Function.update_self] at h
    exact absurd h hx
  · rw [Function.update_of_ne hc] at h
    exact h

theorem exec_returned {l : Label I} (hs : exec w l = some v) {c : I} {err : Err} {n : ℕ}
    (hret : v.clerks c = .returned err n) :
    w.clerks c = .returned err n ∨ ∃ call left, l = .answered c ∧
      w.clerks c = .passing call (left + 1) ∧
      afterPutOnce (call.committed (submit w.kv call).2 0) (submit w.kv call).2 =
        .returned err n := by
  cases exec_stepped hs with
  | put d args => exact .inl (returned_of_update hret Clerk.noConfusion)
  | route d replicas call hd => exact .inl (returned_of_update hret Clerk.noConfusion)
  | unanswered d call left hd => exact .inl (returned_of_update hret nextReplica_returned)
  | answered d call left hd =>
    by_cases hc : c = d
    · subst hc
      change Function.update w.clerks c _ c = _ at hret
      rw [Function.update_self] at hret
      exact .inr ⟨call, left, rfl, hd, hret⟩
    · change Function.update w.clerks d _ c = _ at hret
      rw [Function.update_of_ne hc] at hret
      exact .inl hret
  | commit d later call resume hd =>
    refine .inl (returned_of_update hret ?_)
    rcases Clerk.call_cases hd with ⟨_, rfl⟩ | ⟨left, _, rfl⟩
    · exact Clerk.noConfusion
    · exact Clerk.noConfusion
  | move s state => exact .inl hret

theorem exec_truthful (h : Inv w) {l : Label I} (hs : exec w l = some v)
    (haware : ¬ Unaware ⟨w, l, v⟩)
    (hold : ∀ c err n, w.clerks c = .returned err n → Truthful err n) :
    ∀ c err n, v.clerks c = .returned err n → Truthful err n := by
  intro c err n hret
  rcases exec_returned hs hret with hsame | ⟨call, left, rfl, hc, hafter⟩
  · exact hold c err n hsame
  · have hok : CallOk w.kv call := h.clerk hc
    cases hsent : call.sent with
    | true => exact answered_truthful hok (.inl hsent) hafter
    | false =>
      by_cases hzero : call.applied = 0
      · exact answered_truthful hok (.inr hzero) hafter
      · -- Unaware unless the group does not serve the shard; then nothing is returned.
        have hnot : (w.kv (key2Shard call.args.key)).state ≠ .serving := fun hserving =>
          haware ⟨c, call, left, rfl, hc, hserving, hsent, Nat.pos_of_ne_zero hzero⟩
        have hgroup : (submit w.kv call).2 = .errWrongGroup := by
          unfold submit doPut
          simp only [ne_eq, hnot, not_false_eq_true, if_true]
        rw [hgroup] at hafter
        cases hafter

/-- Every result of `Clerk.Put` is truthful exactly when no replica answers an RPC of the
    first pass of a call after one without answer took effect. -/
theorem put_truthful_iff (run : Run (clerks I) tr w) :
    AllTruthful tr ↔ ∀ t ∈ tr, ¬ Unaware t := by
  constructor
  · rintro h t ht ⟨c, call, left, hlabel, hc, hserving, hsent, hpos⟩
    obtain ⟨⟨past, hpast⟩, hstep, -⟩ := run.visited ht
    have hok : CallOk t.pre.kv call := (clerks_inv hpast).clerk hc
    have hone : call.applied = 1 ∧ call.args.version < versionOf (entry t.pre.kv call.args.key) := by
      rcases hok with hzero | hone
      · omega
      · exact hone
    have hversion : (submit t.pre.kv call).2 = .errVersion := doPut_past hserving hone.2
    have hret : t.post.clerks c = .returned .errVersion 1 := by
      rw [hlabel] at hstep
      change exec t.pre (.answered c) = some t.post at hstep
      unfold exec at hstep
      simp only [hc] at hstep
      rw [← Option.some.inj hstep, hversion]
      change Function.update t.pre.clerks c
        (afterPutOnce (call.committed .errVersion 0) .errVersion) c = _
      rw [Function.update_self]
      simp only [afterPutOnce, PutCall.committed, hsent, hone.1]
      rfl
    have hzero := (truthful_errVersion 1).mp (h t ht c .errVersion 1 hret)
    cases hzero
  · intro haware
    have hall := Run.history (I := fun tr w => (∀ t ∈ tr, ¬ Unaware t) →
      (∀ c err n, w.clerks c = .returned err n → Truthful err n) ∧ AllTruthful tr) ?_ ?_ run
    · exact (hall haware).2
    · rintro s rfl -
      refine ⟨fun c err n hret => ?_, fun t ht => ?_⟩
      · cases hret
      · cases ht
    · intro tr s l u hrun ih hstep hcond
      obtain ⟨hlast, hpast⟩ := List.forall_mem_cons.mp hcond
      obtain ⟨hold, htr⟩ := ih hpast
      have hnew := exec_truthful (clerks_inv hrun) hstep hlast hold
      exact ⟨hnew, List.forall_mem_cons.mpr ⟨hnew, htr⟩⟩

end Outcomes

section Sample

def sampleArgs : PutArgs := ⟨"10", "x", 0⟩

/-- Two replicas: the first leaves the RPC without answer, its operation is committed, and
    the second answers. -/
def retried : List (Label Unit) :=
  [.put () sampleArgs, .route () 2, .unanswered (), .commit () 0, .answered ()]

def nextPass : List (Label Unit) :=
  [.put () sampleArgs, .route () 1, .unanswered (), .commit () 0, .route () 1, .answered ()]

def isReturned (clerk : Clerk) (err : Err) (n : ℕ) : Bool :=
  match clerk with
  | .returned e m => decide (e = err ∧ m = n)
  | _ => false

theorem eq_of_isReturned {clerk : Clerk} {err : Err} {n : ℕ} (h : isReturned clerk err n = true) :
    clerk = .returned err n := by
  cases clerk with
  | returned e m =>
    obtain ⟨rfl, rfl⟩ := of_decide_eq_true h
    rfl
  | _ => cases h

end Sample

theorem put_truthful_nextPass : ∃ tr w, Run (clerks Unit) tr w ∧
    w.clerks () = .returned .errMaybe 1 ∧ (AllTruthful tr ↔ ∀ t ∈ tr, ¬ Unaware t) := by
  have hsome : (replay exec (⟨initShards gid1, fun _ => .idle⟩ : World Unit) [] nextPass).map
      (fun r => isReturned (r.2.clerks ()) .errMaybe 1) = some true := by
    decide +kernel
  obtain ⟨⟨tr, w⟩, hr, hd⟩ := Option.map_eq_some_iff.mp hsome
  have hrun : Run (clerks Unit) tr w := Run.replay (fun _ _ _ h => h) _ (.start rfl) hr
  exact ⟨tr, w, hrun, eq_of_isReturned hd, put_truthful_iff hrun⟩

/-- `Clerk.Put` returns ErrVersion although its first RPC wrote the value. -/
theorem first_pass_hides_write : ∃ tr w, Run (clerks Unit) tr w ∧
    w.clerks () = .returned .errVersion 1 ∧ ¬ AllTruthful tr := by
  have hsome : (replay exec (⟨initShards gid1, fun _ => .idle⟩ : World Unit) [] retried).map
      (fun r => isReturned (r.2.clerks ()) .errVersion 1 &&
        r.1.any (fun t => isReturned (t.post.clerks ()) .errVersion 1)) = some true := by
    decide +kernel
  obtain ⟨⟨tr, w⟩, hr, hd⟩ := Option.map_eq_some_iff.mp hsome
  obtain ⟨hw, hany⟩ := (Bool.and_eq_true _ _).mp hd
  obtain ⟨t, ht, hret⟩ := List.any_eq_true.mp hany
  refine ⟨tr, w, Run.replay (fun _ _ _ h => h) _ (.start rfl) hr, eq_of_isReturned hw, fun h => ?_⟩
  have hzero := (truthful_errVersion 1).mp (h t ht () .errVersion 1 (eq_of_isReturned hret))
  cases hzero

end DistributedLabs.ShardClerk
