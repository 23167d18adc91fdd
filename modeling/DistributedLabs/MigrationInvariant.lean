import DistributedLabs.Migration

set_option autoImplicit false

/-!
# The invariant of shard migration

Each shard is handed on as its plan says, whatever is in flight for it was sent when the
plan allowed it, and a controller that went past a step has achieved it.
-/
namespace DistributedLabs.MigrationInvariant

open Handoff KvServer Migration Runs ShardCfg ShardServer

def plan (chain : ConfigChain) (s : Tshid) : Plan Tgid :=
  ⟨fun k => (chain.config k).shards s, fun k => (chain.config k).num, chain.increasing⟩

def applyAll (d : Data) : List PutArgs → Option Data
  | [] => some d
  | p :: ps =>
    let r := put d p.key p.value p.version
    if r.2 = .ok then applyAll r.1 ps else none

def ofShard (s : Tshid) (l : List PutArgs) : List PutArgs :=
  l.filter (fun p => key2Shard p.key = s)

theorem applyAll_append (d : Data) (l l' : List PutArgs) :
    applyAll d (l ++ l') = (applyAll d l).bind fun e => applyAll e l' := by
  induction l generalizing d with
  | nil => rfl
  | cons p l ih =>
    rw [List.cons_append, applyAll, applyAll]
    split
    · exact ih _
    · rfl

theorem applyAll_snoc {d e e' : Data} {l : List PutArgs} {p : PutArgs} (h : applyAll d l = some e)
    (hp : put e p.key p.value p.version = (e', .ok)) : applyAll d (l ++ [p]) = some e' := by
  rw [applyAll_append, h, Option.bind_some, applyAll, hp]
  rfl

section Records

variable {I J : Type}

def recs (groups : Tgid → Shards) (s : Tshid) : Tgid → ShardRec := fun g => groups g s

theorem recs_update_self (groups : Tgid → Shards) (gid : Tgid) (s : Tshid) (x : ShardRec) :
    recs (Function.update groups gid (Function.update (groups gid) s x)) s =
      Function.update (recs groups s) gid x := by
  funext g
  unfold recs
  by_cases hg : g = gid
  · subst hg
    rw [Function.update_self, Function.update_self, Function.update_self]
  · rw [Function.update_of_ne hg, Function.update_of_ne hg]

theorem recs_update_other (groups : Tgid → Shards) (gid : Tgid) {s t : Tshid} (x : ShardRec)
    (hne : t ≠ s) :
    recs (Function.update groups gid (Function.update (groups gid) s x)) t = recs groups t := by
  funext g
  unfold recs
  by_cases hg : g = gid
  · subst hg
    rw [Function.update_self, Function.update_of_ne hne]
  · rw [Function.update_of_ne hg]

end Records

variable (chain : ConfigChain)

def Sendable (k : ℕ) (groups : Tgid → Shards) (gid : Tgid) (r : Request) : Prop :=
  ∀ s op, r.op = some (s, op) → ∃ j, j ≤ k ∧ (plan chain s).Moves j ∧
    Allowed (plan chain s) j (recs groups s) gid op

/-- What a controller has achieved for the shard it is at. -/
def AtPhase (groups : Tgid → Shards) (m : Mover) (s : Tshid) : Prop :=
  match m.phase with
  | .freeze => True
  | .install => Ready (plan chain s) m.index (decodeShard m.state) (recs groups s)
  | .delete => Installed (plan chain s) m.index (recs groups s)

structure Moving (k : ℕ) (groups : Tgid → Shards) (m : Mover) : Prop where
  index : m.index ≤ k
  done : ∀ s : Tshid, s.val < m.shard → (plan chain s).Moves m.index →
    Installed (plan chain s) m.index (recs groups s) ∧
      Deleted (plan chain s) m.index noData (recs groups s)
  current : ∀ s : Tshid, s.val = m.shard → (plan chain s).Moves m.index → AtPhase chain groups m s

structure Inv {I J : Type} (w : World I J) : Prop where
  shards : ∀ s, ∃ d, applyAll noData (ofShard s w.accepted) = some d ∧
    Settled (plan chain s) w.published noData d (recs w.groups s)
  flight : ∀ msg ∈ w.inflight, Sendable chain w.published w.groups msg.1 msg.2
  movers : ∀ c m, w.movers c = some m → Moving chain w.published w.groups m

/-- Steps of the groups that undo nothing. -/
def Onward (k : ℕ) (groups groups' : Tgid → Shards) : Prop :=
  ∀ s, Keeps (plan chain s) k noData (recs groups s) (recs groups' s)

section Onward

variable {chain : ConfigChain} {k : ℕ} {groups groups' : Tgid → Shards}

theorem Onward.refl (k : ℕ) (groups : Tgid → Shards) : Onward chain k groups groups :=
  fun _ => Keeps.refl _ _ _ _

theorem Sendable.onward {gid : Tgid} {r : Request} (h : Sendable chain k groups gid r)
    (ho : Onward chain k groups groups') : Sendable chain k groups' gid r := by
  intro s op hop
  obtain ⟨j, hj, hm, ha⟩ := h s op hop
  exact ⟨j, hj, hm, (ho s).allowed hj hm ha⟩

theorem Sendable.mono {k' : ℕ} {gid : Tgid} {r : Request} (h : Sendable chain k groups gid r)
    (hk : k ≤ k') : Sendable chain k' groups gid r := by
  intro s op hop
  obtain ⟨j, hj, hm, ha⟩ := h s op hop
  exact ⟨j, le_trans hj hk, hm, ha⟩

theorem Moving.onward {m : Mover} (h : Moving chain k groups m)
    (ho : Onward chain k groups groups') : Moving chain k groups' m where
  index := h.index
  done s hs hm := by
    obtain ⟨hi, hd⟩ := h.done s hs hm
    exact ⟨(ho s).installed _ hi, (ho s).deleted _ hd⟩
  current s hs hm := by
    have hc := h.current s hs hm
    unfold AtPhase at hc ⊢
    cases hp : m.phase with
    | freeze => trivial
    | install =>
      rw [hp] at hc
      exact (ho s).ready _ h.index hm _ hc
    | delete =>
      rw [hp] at hc
      exact (ho s).installed _ hc

theorem Moving.mono {k' : ℕ} {m : Mover} (h : Moving chain k groups m) (hk : k ≤ k') :
    Moving chain k' groups m :=
  ⟨le_trans h.index hk, h.done, h.current⟩

end Onward

section Serve

variable {chain : ConfigChain} {I J : Type} {w : World I J}

/-- The step of a group takes one shard on as the plan says and leaves the others. -/
theorem onward_update {k : ℕ} {groups : Tgid → Shards} {gid : Tgid} {s : Tshid} {x : ShardRec}
    (h : Keeps (plan chain s) k noData (recs groups s) (Function.update (recs groups s) gid x)) :
    Onward chain k groups (Function.update groups gid (Function.update (groups gid) s x)) := by
  intro t
  by_cases ht : t = s
  · subst ht
    rw [recs_update_self]
    exact h
  · rw [recs_update_other _ _ _ ht]
    exact Keeps.refl _ _ _ _

theorem ofShard_append (s : Tshid) (l l' : List PutArgs) :
    ofShard s (l ++ l') = ofShard s l ++ ofShard s l' :=
  List.filter_append _ _

theorem acceptedBy_of_op {r : Request} {reply : Reply} {x : Tshid × Op Data}
    (h : r.op = some x) : acceptedBy r reply = [] := by
  cases r with
  | put key value version => cases h
  | _ => rfl

theorem apply_groups {gid : Tgid} {r : Request} {s : Tshid} {op : Op Data}
    (hop : r.op = some (s, op)) : (w.apply gid r).groups = Function.update w.groups gid
      (Function.update (w.groups gid) s ((w.groups gid s).apply noData op)) := by
  rw [← doOp_op hop]
  rfl

theorem apply_accepted {gid : Tgid} {r : Request} {x : Tshid × Op Data} (hop : r.op = some x) :
    (w.apply gid r).accepted = w.accepted := by
  change w.accepted ++ _ = _
  rw [acceptedBy_of_op hop, List.append_nil]

theorem Inv.apply_op (h : Inv chain w) {gid : Tgid} {r : Request} {s : Tshid} {op : Op Data}
    (hop : r.op = some (s, op)) (hs : Sendable chain w.published w.groups gid r) :
    Onward chain w.published w.groups (w.apply gid r).groups ∧
      ∀ t, ∃ d, applyAll noData (ofShard t (w.apply gid r).accepted) = some d ∧
        Settled (plan chain t) w.published noData d (recs (w.apply gid r).groups t) := by
  obtain ⟨j, hj, hm, ha⟩ := hs s op hop
  rw [apply_groups hop, apply_accepted hop]
  refine ⟨onward_update ?_, fun t => ?_⟩
  · obtain ⟨d, -, hset⟩ := h.shards s
    exact hset.perform_keeps hj hm ha
  · obtain ⟨d, hd, hset⟩ := h.shards t
    refine ⟨d, hd, ?_⟩
    by_cases ht : t = s
    · subst ht
      rw [recs_update_self]
      exact hset.perform hj hm ha
    · rw [recs_update_other _ _ _ ht]
      exact hset

/-- A `Put` changes nothing, or a serving group accepts it. -/
theorem apply_put_cases (w : World I J) (gid : Tgid) (key value : String) (version : ℕ) :
    ((w.apply gid (.put key value version)).groups = w.groups ∧
      (w.apply gid (.put key value version)).accepted = w.accepted) ∨
    (w.groups gid (key2Shard key)).state = .serving ∧
      (w.apply gid (.put key value version)).accepted = w.accepted ++ [⟨key, value, version⟩] ∧
      ∃ d, put (w.groups gid (key2Shard key)).data key value version = (d, .ok) ∧
        (w.apply gid (.put key value version)).groups = Function.update w.groups gid
          (Function.update (w.groups gid) (key2Shard key)
            ⟨d, (w.groups gid (key2Shard key)).state, (w.groups gid (key2Shard key)).num⟩) := by
  have hgroups : (w.apply gid (.put key value version)).groups =
      Function.update w.groups gid (doPut (w.groups gid) key value version).1 := rfl
  have haccepted : (w.apply gid (.put key value version)).accepted = w.accepted ++
      acceptedBy (.put key value version) (.put (doPut (w.groups gid) key value version).2) := rfl
  rw [hgroups, haccepted]
  rcases doPut_spec (w.groups gid) key value version with ⟨herr, hkv⟩ | ⟨hstate, hok, d, hd, hkv⟩
  · left
    rw [hkv, Function.update_eq_self]
    refine ⟨rfl, ?_⟩
    cases hres : (doPut (w.groups gid) key value version).2 with
    | ok => exact absurd hres herr
    | _ => exact List.append_nil _
  · right
    rw [hkv, hok]
    exact ⟨hstate, rfl, d, hd, rfl⟩

theorem ofShard_singleton_self (p : PutArgs) : ofShard (key2Shard p.key) [p] = [p] := by
  simp [ofShard]

theorem ofShard_singleton_other {s : Tshid} {p : PutArgs} (h : s ≠ key2Shard p.key) :
    ofShard s [p] = [] := by
  simp [ofShard, Ne.symm h]

theorem Inv.apply_put (h : Inv chain w) (gid : Tgid) (key value : String) (version : ℕ) :
    Onward chain w.published w.groups (w.apply gid (.put key value version)).groups ∧
      ∀ t, ∃ d, applyAll noData (ofShard t (w.apply gid (.put key value version)).accepted) = some d ∧
        Settled (plan chain t) w.published noData d
          (recs (w.apply gid (.put key value version)).groups t) := by
  rcases apply_put_cases w gid key value version with
    ⟨hgroups, haccepted⟩ | ⟨hstate, haccepted, e, he, hgroups⟩
  · rw [hgroups, haccepted]
    exact ⟨Onward.refl _ _, h.shards⟩
  · rw [hgroups, haccepted]
    have hserving : (recs w.groups (key2Shard key) gid).state = .serving := hstate
    refine ⟨onward_update (write_keeps hserving e), fun t => ?_⟩
    obtain ⟨d, hd, hset⟩ := h.shards t
    rw [ofShard_append]
    by_cases ht : t = key2Shard key
    · subst ht
      have hcontent : (recs w.groups (key2Shard key) gid).data = d := by
        rcases hset.placed.serving with hno | ⟨g, -, hdata, honly⟩
        · exact absurd hserving (hno gid)
        · rw [honly gid hserving]
          exact hdata
      rw [ofShard_singleton_self ⟨key, value, version⟩, recs_update_self]
      refine ⟨e, applyAll_snoc hd ?_, hset.write hserving e⟩
      rw [← hcontent]
      exact he
    · rw [ofShard_singleton_other ht, List.append_nil, recs_update_other _ _ _ ht]
      exact ⟨d, hd, hset⟩

theorem Inv.apply (h : Inv chain w) {gid : Tgid} {r : Request}
    (hs : Sendable chain w.published w.groups gid r) :
    Onward chain w.published w.groups (w.apply gid r).groups ∧ Inv chain (w.apply gid r) := by
  have lift (hboth : Onward chain w.published w.groups (w.apply gid r).groups ∧
      ∀ t, ∃ d, applyAll noData (ofShard t (w.apply gid r).accepted) = some d ∧
        Settled (plan chain t) w.published noData d (recs (w.apply gid r).groups t)) :
      Onward chain w.published w.groups (w.apply gid r).groups ∧ Inv chain (w.apply gid r) :=
    ⟨hboth.1, hboth.2, fun msg hmsg => (h.flight msg hmsg).onward hboth.1,
      fun c m hm => (h.movers c m hm).onward hboth.1⟩
  cases hr : r with
  | get key =>
    rw [hr] at lift
    refine lift ?_
    have hgroups : (w.apply gid (.get key)).groups = w.groups := Function.update_eq_self _ _
    have haccepted : (w.apply gid (.get key)).accepted = w.accepted := List.append_nil _
    rw [hgroups, haccepted]
    exact ⟨Onward.refl _ _, h.shards⟩
  | put key value version =>
    rw [hr] at lift
    exact lift (h.apply_put gid key value version)
  | _ =>
    rw [hr] at lift hs
    exact lift (h.apply_op rfl hs)

end Serve

section Movers

variable {chain : ConfigChain} {I J : Type} {w : World I J}

theorem clerkFor_old (chain : ConfigChain) (k : ℕ) (s : Tshid) (new : ShardConfig) :
    clerkFor (chain.config k) new ((chain.config k).shards s) =
      some ((chain.config k).shards s) := by
  have hlen := fun h => chain.served k s (List.length_eq_zero_iff.mp h)
  unfold clerkFor
  simp only [if_neg hlen, if_neg (chain.assigned k s)]

theorem clerkFor_new (chain : ConfigChain) (k : ℕ) (s : Tshid) (old : ShardConfig) :
    clerkFor old (chain.config k) ((chain.config k).shards s) =
      some ((chain.config k).shards s) := by
  have hlen := fun h => chain.served k s (List.length_eq_zero_iff.mp h)
  unfold clerkFor
  simp only [if_neg (chain.assigned k s)]
  by_cases hold : ((old.groups.lookup ((chain.config k).shards s)).getD []).length = 0
  · rw [if_pos hold, if_neg hlen]
  · rw [if_neg hold, if_neg hold]

def phaseRequest (chain : ConfigChain) (m : Mover) (s : Tshid) : Tgid × Request :=
  match m.phase with
  | .freeze => ((plan chain s).owner m.index, .freeze s ((plan chain s).num (m.index + 1)))
  | .install =>
    ((plan chain s).owner (m.index + 1), .install s m.state ((plan chain s).num (m.index + 1)))
  | .delete => ((plan chain s).owner m.index, .delete s ((plan chain s).num (m.index + 1)))

/-- In a chain all groups have servers: a controller skips the shards that stay, and sends
    a request for each phase of those that move. -/
theorem completeChange_cases (chain : ConfigChain) (m : Mover) {t : Task}
    (h : completeChange (chain.config m.index) (chain.config (m.index + 1)) m = some t) :
    ∃ s : Tshid, s.val = m.shard ∧ (t = .skipShard ∧ ¬ (plan chain s).Moves m.index ∨
      (plan chain s).Moves m.index ∧
        t = .request (phaseRequest chain m s).1 (phaseRequest chain m s).2) := by
  unfold completeChange at h
  split at h
  · rename_i hlt
    refine ⟨⟨m.shard, hlt⟩, rfl, ?_⟩
    simp only at h
    split at h
    · rename_i hsame
      cases h
      exact .inl ⟨rfl, fun hm => hm hsame⟩
    · rename_i hmoves
      refine .inr ⟨hmoves, ?_⟩
      cases h
      unfold phaseTask phaseRequest
      cases m.phase with
      | freeze =>
        simp only [clerkFor_old]
        rfl
      | install =>
        simp only [clerkFor_new]
        rfl
      | delete =>
        simp only [clerkFor_old]
        rfl
  · cases h

theorem task_cases {c : I} {m : Mover} {t : Task} (h : w.task chain c = some (m, t)) :
    w.movers c = some m ∧ ∃ s : Tshid, s.val = m.shard ∧
      (t = .skipShard ∧ ¬ (plan chain s).Moves m.index ∨ (plan chain s).Moves m.index ∧
        t = .request (phaseRequest chain m s).1 (phaseRequest chain m s).2) := by
  obtain ⟨m', hm', h⟩ := Option.bind_eq_some_iff.mp h
  obtain ⟨t', ht', heq⟩ := Option.map_eq_some_iff.mp h
  cases heq
  exact ⟨hm', completeChange_cases chain m ht'⟩

theorem Moving.sendable {k : ℕ} {groups : Tgid → Shards} {m : Mover}
    (h : Moving chain k groups m) {s : Tshid} (hs : s.val = m.shard)
    (hm : (plan chain s).Moves m.index) :
    Sendable chain k groups (phaseRequest chain m s).1 (phaseRequest chain m s).2 := by
  have hc := h.current s hs hm
  intro t op hop
  unfold AtPhase at hc
  unfold phaseRequest at hop ⊢
  cases hp : m.phase with
  | freeze =>
    rw [hp] at hop
    cases hop
    exact ⟨m.index, h.index, hm, rfl, rfl⟩
  | install =>
    rw [hp] at hop hc
    cases hop
    exact ⟨m.index, h.index, hm, rfl, rfl, hc⟩
  | delete =>
    rw [hp] at hop hc
    cases hop
    exact ⟨m.index, h.index, hm, rfl, rfl, hc⟩

theorem Moving.nextShard {k : ℕ} {groups : Tgid → Shards} {m : Mover}
    (h : Moving chain k groups m)
    (hdone : ∀ s : Tshid, s.val = m.shard → (plan chain s).Moves m.index →
      Installed (plan chain s) m.index (recs groups s) ∧
        Deleted (plan chain s) m.index noData (recs groups s)) :
    Moving chain k groups m.nextShard where
  index := h.index
  done s hs hm := by
    rcases Nat.lt_or_eq_of_le (Nat.le_of_lt_succ hs) with hlt | heq
    · exact h.done s hlt hm
    · exact hdone s heq hm
  current _ _ _ := trivial

theorem apply_recs {gid : Tgid} {r : Request} {s : Tshid} {op : Op Data}
    (hop : r.op = some (s, op)) :
    recs (w.apply gid r).groups s = perform noData (recs w.groups s) gid op := by
  rw [apply_groups hop, recs_update_self]
  rfl

theorem eq_of_val {s t : Tshid} {n : ℕ} (hs : s.val = n) (ht : t.val = n) : t = s :=
  Fin.ext (ht.trans hs.symm)

/-- The reply to its request takes a controller on. -/
theorem Inv.answer (h : Inv chain w) {m : Mover} (hmov : Moving chain w.published w.groups m)
    {s : Tshid} (hs : s.val = m.shard) (hm : (plan chain s).Moves m.index) {r : Request}
    (hr : sameRequest r (phaseRequest chain m s).2 = true)
    (hsend : Sendable chain w.published w.groups (phaseRequest chain m s).1 r) :
    Moving chain w.published (w.apply (phaseRequest chain m s).1 r).groups
      (m.answer (doOp (w.groups (phaseRequest chain m s).1) r).2) := by
  have hafter := hmov.onward (h.apply hsend).1
  obtain ⟨d, -, hset⟩ := h.shards s
  unfold phaseRequest at hr hafter ⊢
  cases hp : m.phase with
  | freeze =>
    rw [hp] at hr hafter
    simp only at hr hafter ⊢
    cases r with
    | freeze s' n =>
      obtain ⟨rfl, rfl⟩ := of_decide_eq_true hr
      change Moving chain w.published _ (m.answer (doFreeze _ _ _).2)
      rw [doFreeze_eq]
      simp only [Mover.answer, Mover.nextPhase, hp]
      refine ⟨hafter.index, hafter.done, fun t ht _ => ?_⟩
      obtain rfl : t = s' := eq_of_val hs ht
      change Ready _ _ _ (recs (w.apply _ (.freeze t _)).groups t)
      rw [apply_recs rfl]
      exact hset.freeze_ready hmov.index hm
    | _ => cases hr
  | install =>
    rw [hp] at hr hafter
    simp only at hr hafter ⊢
    cases r with
    | install s' state n =>
      obtain ⟨rfl, rfl⟩ := of_decide_eq_true hr
      change Moving chain w.published _ (m.answer (doInstall _ _ _ _).2)
      rw [doInstall_eq]
      simp only [Mover.answer, Mover.nextPhase, hp]
      refine ⟨hafter.index, hafter.done, fun t ht _ => ?_⟩
      obtain rfl : t = s' := eq_of_val hs ht
      change Installed _ _ (recs (w.apply _ (.install t state _)).groups t)
      rw [apply_recs rfl]
      exact installed_of_install _ _ _ _ _
    | _ => cases hr
  | delete =>
    rw [hp] at hr hafter
    simp only at hr hafter ⊢
    cases r with
    | delete s' n =>
      obtain ⟨rfl, rfl⟩ := of_decide_eq_true hr
      change Moving chain w.published _ (m.answer (doDelete _ _ _).2)
      rw [doDelete_eq]
      simp only [Mover.answer, Mover.nextPhase, hp]
      refine hafter.nextShard (fun t ht hmt => ?_)
      obtain rfl : t = s' := eq_of_val hs ht
      have hinst := hafter.current t ht hmt
      unfold AtPhase at hinst
      rw [hp] at hinst
      refine ⟨hinst, ?_⟩
      rw [apply_recs rfl]
      exact deleted_of_delete _ _ _ _
    | _ => cases hr

end Movers

section Steps

variable {chain : ConfigChain} {I J : Type} [DecidableEq I] [DecidableEq J] {w v : World I J}

omit [DecidableEq J] in
theorem Inv.setMover (h : Inv chain w) {c : I} {x : Option Mover}
    (hx : ∀ m, x = some m → Moving chain w.published w.groups m) : Inv chain (w.setMover c x) where
  shards := h.shards
  flight := h.flight
  movers d m hm := by
    change Function.update w.movers c x d = some m at hm
    rw [Function.update_apply] at hm
    split at hm
    · exact hx m hm
    · exact h.movers d m hm

omit [DecidableEq I] in
theorem Inv.setClient (h : Inv chain w) (j : J) (s : Client) : Inv chain (w.setClient j s) :=
  ⟨h.shards, h.flight, h.movers⟩

omit [DecidableEq I] [DecidableEq J] in
theorem Inv.post (h : Inv chain w) {gid : Tgid} {r : Request}
    (hs : Sendable chain w.published w.groups gid r) : Inv chain (w.post gid r) where
  shards := h.shards
  movers := h.movers
  flight msg hmsg := by
    rcases List.mem_append.mp hmsg with hmsg | hmsg
    · exact h.flight msg hmsg
    · rw [List.mem_singleton.mp hmsg]
      exact hs

theorem call_sendable (k : ℕ) (groups : Tgid → Shards) (gid : Tgid) (call : Call) :
    Sendable chain k groups gid call.request := by
  intro s op hop
  cases call with
  | get key => cases hop
  | put args => cases hop

omit [DecidableEq I] [DecidableEq J] in
/-- A controller that went through all shards makes the next configuration visible. -/
theorem Inv.publish (h : Inv chain w) {m : Mover} (hm : Moving chain w.published w.groups m)
    (hall : ¬ m.shard < nShards) :
    Inv chain { w with published := max w.published (m.index + 1) } := by
  rcases Nat.lt_or_eq_of_le hm.index with hlt | heq
  · have hmax : max w.published (m.index + 1) = w.published := max_eq_left hlt
    rw [hmax]
    exact h
  · have hmax : max w.published (m.index + 1) = w.published + 1 := by
      rw [heq]
      exact max_eq_right (Nat.le_succ _)
    rw [hmax]
    refine ⟨fun s => ?_, fun msg hmsg => (h.flight msg hmsg).mono (Nat.le_succ _),
      fun c m' hm' => (h.movers c m' hm').mono (Nat.le_succ _)⟩
    obtain ⟨d, hd, hset⟩ := h.shards s
    refine ⟨d, hd, hset.publish (fun hmoves => ?_)⟩
    rw [← heq] at hmoves ⊢
    exact hm.done s (lt_of_lt_of_le s.isLt (not_lt.mp hall)) hmoves

inductive Delivered (chain : ConfigChain) (w : World I J) (gid : Tgid) (r : Request)
    (reply : Reply) : (World I J → World I J) → Prop where
  | nobody : Delivered chain w gid r reply id
  | mover (c : I) (m : Mover) (r' : Request) (task : w.task chain c = some (m, .request gid r'))
      (same : sameRequest r r' = true) :
      Delivered chain w gid r reply (fun v => v.setMover c (some (m.answer reply)))
  | client (j : J) (call : Call) (before : ℕ) (sent : w.clients j = .sent call before gid) :
      Delivered chain w gid r reply (fun v => v.setClient j
        (if Reply.wrongGroup reply then .called call before else .idle))

theorem deliver_delivered {gid : Tgid} {r : Request} {reply : Reply} {dest : Recipient I J}
    {f : World I J → World I J} (hf : deliver chain w gid r reply dest = some f) :
    Delivered chain w gid r reply f := by
  cases dest with
  | nobody =>
    cases hf
    exact .nobody
  | mover c =>
    unfold deliver at hf
    simp only at hf
    split at hf
    · obtain ⟨⟨rfl, hsame⟩, hsome⟩ := Option.ite_none_right_eq_some.mp hf
      cases hsome
      exact .mover c _ _ ‹_› hsame
    · cases hf
  | client j =>
    unfold deliver at hf
    simp only at hf
    split at hf
    · obtain ⟨⟨rfl, -⟩, hsome⟩ := Option.ite_none_right_eq_some.mp hf
      cases hsome
      exact .client j _ _ ‹_›
    · cases hf

/-- What a step does, and what it found. -/
inductive Stepped (chain : ConfigChain) (w : World I J) : Label I J → World I J → Prop where
  | start (c : I) (k : ℕ) (hk : k ≤ w.published) :
      Stepped chain w (.start c k) (w.setMover c (some ⟨k, 0, .freeze, none⟩))
  | send (c : I) (m : Mover) (gid : Tgid) (r : Request)
      (task : w.task chain c = some (m, .request gid r)) :
      Stepped chain w (.send c) (w.post gid r)
  | skip (c : I) (m : Mover) (task : w.task chain c = some (m, .skipShard)) :
      Stepped chain w (.skip c) (w.setMover c (some m.nextShard))
  | finish (c : I) (m : Mover) (mover : w.movers c = some m) (all : ¬ m.shard < nShards) :
      Stepped chain w (.finish c)
        { w.setMover c none with published := max w.published (m.index + 1) }
  | stop (c : I) : Stepped chain w (.stop c) (w.setMover c none)
  | call (j : J) (call : Call) :
      Stepped chain w (.call j call) (w.setClient j (.called call w.accepted.length))
  | route (j : J) (gid : Tgid) (call : Call) (before : ℕ)
      (client : w.clients j = .called call before) : Stepped chain w (.route j gid)
        ((w.setClient j (.sent call before gid)).post gid call.request)
  | retry (j : J) (call : Call) (before : ℕ) (gid : Tgid)
      (client : w.clients j = .sent call before gid) :
      Stepped chain w (.retry j) (w.setClient j (.called call before))
  | serve (i : ℕ) (dest : Recipient I J) (gid : Tgid) (r : Request)
      (f : World I J → World I J) (msg : (gid, r) ∈ w.inflight)
      (reached : Delivered chain w gid r (doOp (w.groups gid) r).2 f) :
      Stepped chain w (.serve i dest) (f (w.apply gid r))

theorem exec_stepped {routes : ℕ → Tshid → Tgid → Bool} {l : Label I J}
    (hs : exec chain routes w l = some v) : Stepped chain w l v := by
  cases l with
  | start c k =>
    obtain ⟨⟨-, hk⟩, hs⟩ := Option.ite_none_right_eq_some.mp hs
    cases hs
    exact .start c k hk
  | send c =>
    unfold exec at hs
    simp only at hs
    split at hs
    · cases hs
      exact .send c _ _ _ ‹_›
    · cases hs
  | skip c =>
    unfold exec at hs
    simp only at hs
    split at hs
    · cases hs
      exact .skip c _ ‹_›
    · -- a controller that completes a change skips no phase
      rename_i m htask
      obtain ⟨-, s, -, hskip | ⟨-, hreq⟩⟩ := task_cases htask
      · cases hskip.1
      · cases hreq
    · cases hs
  | finish c =>
    unfold exec at hs
    simp only at hs
    split at hs
    · obtain ⟨hall, hs⟩ := Option.ite_none_left_eq_some.mp hs
      cases hs
      exact .finish c _ ‹_› hall
    · cases hs
  | stop c =>
    cases hs
    exact .stop c
  | call j call =>
    unfold exec at hs
    simp only at hs
    split at hs
    · cases hs
      exact .call j call
    · cases hs
  | route j gid =>
    unfold exec at hs
    simp only at hs
    split at hs
    · obtain ⟨-, hs⟩ := Option.ite_none_right_eq_some.mp hs
      cases hs
      exact .route j gid _ _ ‹_›
    · cases hs
  | retry j =>
    unfold exec at hs
    simp only at hs
    split at hs
    · cases hs
      exact .retry j _ _ _ ‹_›
    · cases hs
  | serve i dest =>
    obtain ⟨⟨gid, r⟩, hmsg, hs⟩ := Option.bind_eq_some_iff.mp hs
    obtain ⟨f, hf, rfl⟩ := Option.map_eq_some_iff.mp hs
    exact .serve i dest gid r f (List.mem_of_getElem? hmsg) (deliver_delivered hf)

theorem Inv.serve (h : Inv chain w) {gid : Tgid} {r : Request} (hmsg : (gid, r) ∈ w.inflight)
    {f : World I J → World I J}
    (hf : Delivered chain w gid r (doOp (w.groups gid) r).2 f) :
    Inv chain (f (w.apply gid r)) := by
  have hsend := h.flight _ hmsg
  have hafter := (h.apply hsend).2
  cases hf with
  | nobody => exact hafter
  | mover c m r' htask hsame =>
    obtain ⟨hmover, s, hs, hskip | ⟨hm, hreq⟩⟩ := task_cases htask
    · cases hskip.1
    · cases hreq
      refine hafter.setMover (fun m' hm' => ?_)
      cases hm'
      exact h.answer (h.movers c m hmover) hs hm hsame hsend
  | client j call before _ => exact hafter.setClient j _

theorem exec_inv (h : Inv chain w) {routes : ℕ → Tshid → Tgid → Bool} {l : Label I J}
    (hs : exec chain routes w l = some v) : Inv chain v := by
  cases exec_stepped hs with
  | start c k hk =>
    refine h.setMover (fun m hm => ?_)
    cases hm
    exact ⟨hk, fun s hs => absurd hs (Nat.not_lt_zero _), fun _ _ _ => trivial⟩
  | send c m gid r htask =>
    obtain ⟨hmover, s, hsh, hskip | ⟨hm, hreq⟩⟩ := task_cases htask
    · cases hskip.1
    · cases hreq
      exact h.post ((h.movers c m hmover).sendable hsh hm)
  | skip c m htask =>
    obtain ⟨hmover, s, hsh, hskip | ⟨-, hreq⟩⟩ := task_cases htask
    · refine h.setMover (fun m' hm' => ?_)
      cases hm'
      refine (h.movers c m hmover).nextShard (fun t ht hmt => ?_)
      rw [eq_of_val hsh ht] at hmt
      exact absurd hmt hskip.2
    · cases hreq
  | finish c m hmover hall =>
    have hstopped : Inv chain (w.setMover c none) := h.setMover (fun m hm => by cases hm)
    exact hstopped.publish (h.movers c m hmover) hall
  | stop c => exact h.setMover (fun m hm => by cases hm)
  | call j call => exact h.setClient j _
  | route j gid call before _ => exact (h.setClient j _).post (call_sendable _ _ _ _)
  | retry j call before gid _ => exact h.setClient j _
  | serve i dest gid r f hmsg hf => exact h.serve hmsg hf

omit [DecidableEq I] [DecidableEq J] in
theorem inv_initially (hpos : 0 < (chain.config 1).num) : Inv chain (initially : World I J) where
  shards s := by
    refine ⟨noData, rfl, settled_start hpos ?_ (fun g hg => ?_)⟩
    · have hfirst : (plan chain s).owner 0 = gid1 := chain.first s
      rw [hfirst]
      rfl
    · have hfirst : (plan chain s).owner 0 = gid1 := chain.first s
      rw [hfirst] at hg
      change (⟨noData, if g = gid1 then .serving else .notOwned, 0⟩ : ShardRec) = _
      rw [if_neg hg]
  flight _ hmsg := by cases hmsg
  movers _ _ hm := by cases hm

theorem migration_inv (hpos : 0 < (chain.config 1).num) {routes : ℕ → Tshid → Tgid → Bool}
    {tr : List (Transition (World I J) (Label I J))} (run : Run (migration chain I J routes) tr w) :
    Inv chain w := by
  refine run.invariant (I := fun w => Inv chain w) ?_ (fun s l u hinv hstep => exec_inv hinv hstep)
  rintro s rfl
  exact inv_initially hpos

end Steps

end DistributedLabs.MigrationInvariant
