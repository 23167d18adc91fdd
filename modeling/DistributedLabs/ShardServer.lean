import DistributedLabs.Handoff
import DistributedLabs.KvServer
import DistributedLabs.ShardCfg

set_option autoImplicit false

/-!
# The state machine of a shard group

`DoOp` of `shardkv1/shardgrp/server.go`. A shard's encoding for transfer is taken to
round-trip: `some` of its data, and `none` is the nil slice. Versions, which are `uint64` in
the source, are natural numbers.
-/
namespace DistributedLabs.ShardServer

open Handoff KvServer ShardCfg

def fnvStep (h : ℕ) (b : UInt8) : ℕ := (h ^^^ b.toNat) * 16777619 % 4294967296

def key2Shard (key : String) : Tshid :=
  ⟨key.toUTF8.toList.foldl fnvStep 2166136261 % nShards, Nat.mod_lt _ (by decide)⟩

abbrev Data := String → Option (KvEntry String)

def noData : Data := fun _ => none

abbrev ShardRec := Rec Data

abbrev Shards := Tshid → ShardRec

def encodeShard (m : Data) : Option Data := some m

def decodeShard (b : Option Data) : Data := b.getD noData

def initShards (gid : Tgid) : Shards := fun _ =>
  ⟨noData, if gid = gid1 then .serving else .notOwned, 0⟩

inductive Request where
  | get (key : String)
  | put (key value : String) (version : ℕ)
  | freeze (shard : Tshid) (num : ℤ)
  | install (shard : Tshid) (state : Option Data) (num : ℤ)
  | delete (shard : Tshid) (num : ℤ)

inductive Reply where
  | get (value : String) (version : ℕ) (err : Err)
  | put (err : Err)
  | freeze (state : Option Data) (num : ℤ) (err : Err)
  | install (err : Err)
  | delete (err : Err)

def doGet (kv : Shards) (key : String) : Reply :=
  let s := key2Shard key
  if (kv s).state = .notOwned then .get "" 0 .errWrongGroup
  else
    match (kv s).data key with
    | none => .get "" 0 .errNoKey
    | some e => .get e.value e.version .ok

/-- `kv.shards[s].Data[key] = e`. -/
def setKey (kv : Shards) (s : Tshid) (key : String) (e : KvEntry String) : Shards :=
  Function.update kv s ⟨Function.update (kv s).data key (some e), (kv s).state, (kv s).num⟩

def doPut (kv : Shards) (key value : String) (version : ℕ) : Shards × Err :=
  let s := key2Shard key
  if (kv s).state ≠ .serving then (kv, .errWrongGroup)
  else
    match (kv s).data key with
    | none =>
      if version ≠ 0 then (kv, .errNoKey)
      else (setKey kv s key ⟨value, 1⟩, .ok)
    | some e =>
      if version ≠ e.version then (kv, .errVersion)
      else (setKey kv s key ⟨value, e.version + 1⟩, .ok)

def doFreeze (kv : Shards) (s : Tshid) (num : ℤ) : Shards × Reply :=
  if num < (kv s).num then (kv, .freeze none num .ok)
  else
    let seen := if (kv s).num < num then num else (kv s).num
    match (kv s).state with
    | .serving =>
      (Function.update kv s ⟨(kv s).data, .frozen, seen⟩,
        .freeze (encodeShard (kv s).data) num .ok)
    | .frozen =>
      (Function.update kv s ⟨(kv s).data, .frozen, seen⟩,
        .freeze (encodeShard (kv s).data) num .ok)
    | .notOwned =>
      (Function.update kv s ⟨(kv s).data, .notOwned, seen⟩, .freeze none num .ok)

def doInstall (kv : Shards) (s : Tshid) (state : Option Data) (num : ℤ) : Shards × Reply :=
  if num ≤ (kv s).num then (kv, .install .ok)
  else (Function.update kv s ⟨decodeShard state, .serving, num⟩, .install .ok)

def doDelete (kv : Shards) (s : Tshid) (num : ℤ) : Shards × Reply :=
  if num < (kv s).num then (kv, .delete .ok)
  else
    let seen := if (kv s).num < num then num else (kv s).num
    (Function.update kv s ⟨noData, .notOwned, seen⟩, .delete .ok)

def doOp (kv : Shards) : Request → Shards × Reply
  | .get key => (kv, doGet kv key)
  | .put key value version =>
    let r := doPut kv key value version
    (r.1, .put r.2)
  | .freeze s num => doFreeze kv s num
  | .install s state num => doInstall kv s state num
  | .delete s num => doDelete kv s num

def Request.op : Request → Option (Tshid × Op Data)
  | .freeze s num => some (s, .freeze num)
  | .install s state num => some (s, .install (decodeShard state) num)
  | .delete s num => some (s, .delete num)
  | _ => none

theorem ite_eq_of_le {a b : ℤ} (h : ¬ b < a) : (if a < b then b else a) = b := by
  split
  · rfl
  · omega

theorem doFreeze_eq (kv : Shards) (s : Tshid) (num : ℤ) : doFreeze kv s num =
    (Function.update kv s ((kv s).apply noData (.freeze num)),
      .freeze ((kv s).handed num) num .ok) := by
  unfold doFreeze Rec.apply Rec.handed
  by_cases hlate : num < (kv s).num
  · simp only [hlate, if_true, Function.update_eq_self]
  · simp only [hlate, if_false, ite_eq_of_le hlate]
    cases hstate : (kv s).state with
    | notOwned => rfl
    | serving => rfl
    | frozen => rfl

theorem doInstall_eq (kv : Shards) (s : Tshid) (state : Option Data) (num : ℤ) :
    doInstall kv s state num =
      (Function.update kv s ((kv s).apply noData (.install (decodeShard state) num)),
        .install .ok) := by
  unfold doInstall Rec.apply
  by_cases hlate : num ≤ (kv s).num
  · simp only [hlate, if_true, Function.update_eq_self]
  · simp only [hlate, if_false]

theorem doDelete_eq (kv : Shards) (s : Tshid) (num : ℤ) : doDelete kv s num =
    (Function.update kv s ((kv s).apply noData (.delete num)), .delete .ok) := by
  unfold doDelete Rec.apply
  by_cases hlate : num < (kv s).num
  · simp only [hlate, if_true, Function.update_eq_self]
  · simp only [hlate, if_false, ite_eq_of_le hlate]

/-- A migration request changes its own shard, as the handoff protocol has it. -/
theorem doOp_op {kv : Shards} {r : Request} {s : Tshid} {op : Op Data} (h : r.op = some (s, op)) :
    (doOp kv r).1 = Function.update kv s ((kv s).apply noData op) := by
  cases r with
  | get key => cases h
  | put key value version => cases h
  | freeze s num =>
    cases h
    exact congrArg Prod.fst (doFreeze_eq kv s num)
  | install s state num =>
    cases h
    exact congrArg Prod.fst (doInstall_eq kv s state num)
  | delete s num =>
    cases h
    exact congrArg Prod.fst (doDelete_eq kv s num)

/-- A `Put` is answered OK by a serving group whose data accept it, and changes nothing
    otherwise. -/
theorem doPut_spec (kv : Shards) (key value : String) (version : ℕ) :
    (doPut kv key value version).2 ≠ .ok ∧ (doPut kv key value version).1 = kv ∨
      (kv (key2Shard key)).state = .serving ∧ (doPut kv key value version).2 = .ok ∧
        ∃ d, put (kv (key2Shard key)).data key value version = (d, .ok) ∧
          (doPut kv key value version).1 = Function.update kv (key2Shard key)
            ⟨d, (kv (key2Shard key)).state, (kv (key2Shard key)).num⟩ := by
  unfold doPut put setKey
  by_cases hs : (kv (key2Shard key)).state = .serving
  · simp only [hs, ne_eq, not_true_eq_false, if_false, true_and]
    cases hd : (kv (key2Shard key)).data key with
    | none =>
      by_cases hv : version = 0
      · simp only [hv, not_true_eq_false, if_false, if_true]
        exact .inr ⟨trivial, _, rfl, rfl⟩
      · simp only [hv, not_false_eq_true, if_true, reduceCtorEq, and_self, true_or]
    | some e =>
      by_cases hv : version = e.version
      · simp only [hv, not_true_eq_false, if_false]
        exact .inr ⟨trivial, _, rfl, rfl⟩
      · simp only [hv, not_false_eq_true, if_true, reduceCtorEq, and_self, true_or]
  · simp only [hs, ne_eq, not_false_eq_true, if_true, reduceCtorEq, and_self, true_or]

end DistributedLabs.ShardServer
