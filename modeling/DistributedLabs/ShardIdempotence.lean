import DistributedLabs.ShardServer

set_option autoImplicit false

/-!
# Repeated migration requests

A freeze, an install or a delete may come again after any number of other requests. It
finds the record either with a larger number, or as it left it: not served under the same
number, or deleted.
-/
namespace DistributedLabs.ShardIdempotence
open Handoff KvServer ShardCfg ShardServer

def after (gid : Tgid) (reqs : List Request) : Shards :=
  reqs.foldl (fun kv r => (doOp kv r).1) (initShards gid)

def shardOf : Request → Tshid
  | .get key => key2Shard key
  | .put key _ _ => key2Shard key
  | .freeze s _ => s
  | .install s _ _ => s
  | .delete s _ => s

theorem shardOf_op {r : Request} {s : Tshid} {op : Op Data} (h : r.op = some (s, op)) :
    shardOf r = s := by
  cases r with
  | get key => cases h
  | put key value version => cases h
  | freeze s num =>
    cases h
    rfl
  | install s state num =>
    cases h
    rfl
  | delete s num =>
    cases h
    rfl

inductive Change (x : Rec Data) : Rec Data → Prop where
  | same : Change x x
  | write (d : Data) (h : x.state = .serving) : Change x ⟨d, x.state, x.num⟩
  | migrate (op : Op Data) : Change x (x.apply noData op)

theorem doOp_update (kv : Shards) (r : Request) : ∃ y, Change (kv (shardOf r)) y ∧
    (doOp kv r).1 = Function.update kv (shardOf r) y := by
  cases hop : r.op with
  | some x =>
    rw [doOp_op hop, shardOf_op hop]
    exact ⟨_, .migrate x.2, rfl⟩
  | none =>
    cases r with
    | get key => exact ⟨_, .same, (Function.update_eq_self _ _).symm⟩
    | put key value version =>
      rcases doPut_spec kv key value version with ⟨_, hsame⟩ | ⟨hs, _, d, _, hput⟩
      · exact ⟨_, .same, hsame.trans (Function.update_eq_self _ _).symm⟩
      · exact ⟨_, .write d hs, hput⟩
    | freeze s num => cases hop
    | install s state num => cases hop
    | delete s num => cases hop

theorem doOp_others (kv : Shards) (r : Request) {s : Tshid} (hs : s ≠ shardOf r) :
    (doOp kv r).1 s = kv s := by
  obtain ⟨y, _, hy⟩ := doOp_update kv r
  rw [hy, Function.update_of_ne hs]

theorem doOp_change (kv : Shards) (r : Request) (s : Tshid) : Change (kv s) ((doOp kv r).1 s) := by
  by_cases hs : s = shardOf r
  · obtain ⟨y, hchange, hy⟩ := doOp_update kv r
    rw [hy, hs, Function.update_self]
    exact hchange
  · rw [doOp_others kv r hs]
    exact .same

variable {x y : Rec Data}

theorem Change.num_le (h : Change x y) : x.num ≤ y.num := by
  cases h with
  | same => exact le_refl _
  | write d _ => exact le_refl _
  | migrate op => exact Rec.num_le_apply noData x op

/-- No later request revives one that is spent. -/
theorem Change.spent (h : Change x y) {op : Op Data} (hs : x.Spent noData op) :
    y.Spent noData op := by
  cases h with
  | same => exact hs
  | write d hserving => exact hs.write hserving d
  | migrate op' => exact hs.apply op'

theorem spent_foldl (reqs : List Request) {kv : Shards} {s : Tshid} {op : Op Data}
    (hs : (kv s).Spent noData op) :
    (reqs.foldl (fun kv r => (doOp kv r).1) kv s).Spent noData op := by
  induction reqs generalizing kv with
  | nil => exact hs
  | cons r reqs ih => exact ih ((doOp_change kv r s).spent hs)

/-- Once it has been carried out, a migration request is spent for good. -/
theorem spent_after (gid : Tgid) (reqs : List Request) {r : Request} (hr : r ∈ reqs) {s : Tshid}
    {op : Op Data} (hop : r.op = some (s, op)) : (after gid reqs s).Spent noData op := by
  obtain ⟨before, rest, rfl⟩ := List.append_of_mem hr
  unfold after
  rw [List.foldl_append, List.foldl_cons]
  refine spent_foldl rest ?_
  rw [doOp_op hop, Function.update_self]
  exact Rec.spent_apply noData _ op

theorem migration_idempotent (gid : Tgid) (reqs : List Request) :
    (∀ r ∈ reqs, r.op.isSome → (doOp (after gid reqs) r).1 = after gid reqs) ∧
    ∀ r s, (s ≠ shardOf r → (doOp (after gid reqs) r).1 s = after gid reqs s) ∧
      (after gid reqs s).num ≤ ((doOp (after gid reqs) r).1 s).num := by
  constructor
  · intro r hr hsome
    obtain ⟨⟨s, op⟩, hop⟩ := Option.isSome_iff_exists.mp hsome
    rw [doOp_op hop, (spent_after gid reqs hr hop).fixed, Function.update_eq_self]
  · intro r s
    exact ⟨doOp_others (after gid reqs) r, (doOp_change (after gid reqs) r s).num_le⟩

/-- After a freeze and a delete under one number, a later install and a write to the shard. -/
def lateRepeats : List Request :=
  let s := key2Shard "10"
  [.freeze s 2, .delete s 2, .freeze s 2, .install s none 3, .put "10" "x" 0, .get "10"]

theorem migration_idempotent_lateRepeats :
    let s := key2Shard "10"
    let kv := after 1 lateRepeats
    ((kv s).num = 3 ∧ (kv s).state = .serving ∧ (kv s).data "10" = some ⟨"x", 1⟩) ∧
    (doOp kv (.freeze s 2)).1 = kv ∧ (doOp kv (.delete s 2)).1 = kv ∧
    (doOp kv (.install s none 3)).1 = kv := by
  intro s kv
  have h := (migration_idempotent 1 lateRepeats).1
  exact ⟨by decide +kernel, h _ (by simp [lateRepeats, s]) rfl, h _ (by simp [lateRepeats, s]) rfl,
    h _ (by simp [lateRepeats, s]) rfl⟩

end DistributedLabs.ShardIdempotence
