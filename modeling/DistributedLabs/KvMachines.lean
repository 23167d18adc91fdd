import DistributedLabs.KvCalls
import DistributedLabs.ShardServer

set_option autoImplicit false

/-!
# Three key/value machines that agree

The conditional write is written three times: for the single server, for kvraft behind the
replicated log, and for a shard group, which keeps a map for every shard. The last two are
also saved and restored. Their replies are compared with those of the single server.

labgob is not modelled. What is assumed of it is the round trip of finite maps and of the
structures that hold them, where an empty map may come back as nil.
-/
namespace DistributedLabs.KvMachines
open Handoff KvServer KvCalls ShardCfg
open ShardServer (Data Shards noData initShards key2Shard)

abbrev Answer := ShardServer.Reply

abbrev Request := Op String String

/-- `labgob` for values of `T`. They come back as values of `W`. -/
structure Labgob (B T W : Type) (ok : T → Prop) (same : T → W → Prop) where
  encode : T → Option B
  len : B → ℕ
  decode : B → Option W
  roundTrip : ∀ t, ok t → ∃ b w, encode t = some b ∧ 0 < len b ∧ decode b = some w ∧ same t w

/-- A map comes back as it was, or as nil (`none`) if it was empty. -/
def SameMap (m : Data) (w : Option Data) : Prop := w.getD noData = m

section single

def wire : KvCalls.Reply String → Answer
  | .get none err => .get "" 0 err
  | .get (some e) err => .get e.value e.version err
  | .put err => .put err

def serve (kv : Data) (req : Request) : Data × Answer :=
  ((KvCalls.doOp kv req).1, wire (KvCalls.doOp kv req).2)

def serveAll (kv : Data) : List Request → List Answer
  | [] => []
  | req :: reqs => (serve kv req).2 :: serveAll (serve kv req).1 reqs

end single

/-- A server that is saved and restored now and then; `G` is what it is saved with. -/
structure Server (σ G : Type) where
  doOp : σ → Request → σ × Answer
  /-- `Snapshot`, and `Restore` of it in a server that has just been started. -/
  restart : G → σ → σ

inductive Event (G : Type) where
  | request (req : Request)
  | restart (gob : G)

def requests {G : Type} : List (Event G) → List Request
  | [] => []
  | .request req :: evs => req :: requests evs
  | .restart _ :: evs => requests evs

def Server.replies {σ G : Type} (srv : Server σ G) (st : σ) : List (Event G) → List Answer
  | [] => []
  | .request req :: evs => (srv.doOp st req).2 :: srv.replies (srv.doOp st req).1 evs
  | .restart gob :: evs => srv.replies (srv.restart gob st) evs

/-- Forward simulation of the single server. -/
theorem Server.replies_eq {σ G : Type} (srv : Server σ G) {R : Data → σ → Prop}
    (hop : ∀ kv st req, R kv st → (srv.doOp st req).2 = (serve kv req).2 ∧
      R (serve kv req).1 (srv.doOp st req).1)
    (hrestart : ∀ kv st gob, R kv st → R kv (srv.restart gob st)) {kv : Data} {st : σ}
    (h : R kv st) (evs : List (Event G)) : srv.replies st evs = serveAll kv (requests evs) := by
  induction evs generalizing kv st with
  | nil => rfl
  | cons ev evs ih =>
    cases ev with
    | request req =>
      obtain ⟨hreply, hnext⟩ := hop kv st req h
      simp only [Server.replies, requests, serveAll, hreply, ih hnext]
    | restart gob => exact ih (hrestart kv st gob h)

theorem finiteMap_noData : FiniteMap noData := ⟨[], fun _ h => absurd rfl h⟩

theorem finiteMap_serve {kv : Data} (h : FiniteMap kv) (req : Request) :
    FiniteMap (serve kv req).1 := by
  cases req with
  | get key => exact h
  | put key value version => exact h.put key value version

namespace Kvraft
variable {B : Type}

def doGet (kv : Data) (key : String) : Answer :=
  match kv key with
  | none => .get "" 0 .errNoKey
  | some e => .get e.value e.version .ok

def doPut (kv : Data) (key value : String) (version : ℕ) : Data × Answer :=
  match kv key with
  | none =>
    if version = 0 then (Function.update kv key (some ⟨value, 1⟩), .put .ok)
    else (kv, .put .errNoKey)
  | some e =>
    if version ≠ e.version then (kv, .put .errVersion)
    else (Function.update kv key (some ⟨value, e.version + 1⟩), .put .ok)

def doOp (kv : Data) : Request → Data × Answer
  | .get key => (kv, doGet kv key)
  | .put key value version => doPut kv key value version

abbrev Gob (B : Type) := Labgob B Data (Option Data) FiniteMap SameMap

def snapshot (gob : Gob B) (kv : Data) : Option B := gob.encode kv

def restore (gob : Gob B) (kv : Data) : Option B → Data
  | none => kv
  | some data =>
    if gob.len data < 1 then kv
    else
      match gob.decode data with
      | none => kv
      -- a map that was empty comes back as nil
      | some m => m.getD noData

def server (B : Type) : Server Data (Gob B) where
  doOp := doOp
  restart gob kv := restore gob noData (snapshot gob kv)

theorem restore_snapshot (gob : Gob B) {kv : Data} (h : FiniteMap kv) (fresh : Data) :
    restore gob fresh (snapshot gob kv) = kv := by
  obtain ⟨b, w, henc, hlen, hdec, hsame⟩ := gob.roundTrip kv h
  have hpos : ¬ gob.len b < 1 := by omega
  simp only [snapshot, restore, henc, hpos, if_false, hdec]
  exact hsame

/-- kvraft's own `DoOp` is the operation that the committed log was modelled with. -/
theorem doOp_eq (kv : Data) (req : Request) : doOp kv req = serve kv req := by
  cases req with
  | get key =>
    simp only [doOp, doGet, serve, KvCalls.doOp, KvServer.get]
    cases kv key <;> rfl
  | put key value version =>
    simp only [doOp, doPut, serve, KvCalls.doOp, put]
    cases kv key with
    | none => by_cases h : version = 0 <;> simp [h, wire]
    | some e => by_cases h : version = e.version <;> simp [h, wire]

theorem replies_eq (evs : List (Event (Gob B))) :
    (server B).replies noData evs = serveAll noData (requests evs) := by
  refine (server B).replies_eq (R := fun kv st => st = kv ∧ FiniteMap kv) ?_ ?_
    ⟨rfl, finiteMap_noData⟩ evs
  · rintro kv st req ⟨rfl, hfin⟩
    exact ⟨congrArg Prod.snd (doOp_eq st req), congrArg Prod.fst (doOp_eq st req),
      finiteMap_serve hfin req⟩
  · rintro kv st gob ⟨rfl, hfin⟩
    exact ⟨restore_snapshot gob hfin noData, hfin⟩

end Kvraft

namespace Shardgrp
variable {B : Type}

def doOp (kv : Shards) : Request → Shards × Answer
  | .get key => ShardServer.doOp kv (.get key)
  | .put key value version => ShardServer.doOp kv (.put key value version)

def SameShards (kv : Shards) (w : Tshid → Rec (Option Data)) : Prop :=
  ∀ s, SameMap (kv s).data (w s).data ∧ (w s).state = (kv s).state ∧ (w s).num = (kv s).num

abbrev Gob (B : Type) :=
  Labgob B Shards (Tshid → Rec (Option Data)) (fun kv => ∀ s, FiniteMap (kv s).data) SameShards

def snapshot (gob : Gob B) (kv : Shards) : Option B := gob.encode kv

/-- A nil map is replaced by an empty one. -/
def restore (gob : Gob B) (kv : Shards) : Option B → Shards
  | none => kv
  | some data =>
    if gob.len data = 0 then kv
    else
      match gob.decode data with
      | none => kv
      | some shards => fun s => ⟨(shards s).data.getD noData, (shards s).state, (shards s).num⟩

def server (gid : Tgid) (B : Type) : Server Shards (Gob B) where
  doOp := doOp
  restart gob kv := restore gob (initShards gid) (snapshot gob kv)

theorem restore_snapshot (gob : Gob B) {kv : Shards} (h : ∀ s, FiniteMap (kv s).data)
    (fresh : Shards) : restore gob fresh (snapshot gob kv) = kv := by
  obtain ⟨b, w, henc, hlen, hdec, hsame⟩ := gob.roundTrip kv h
  have hpos : ¬ gob.len b = 0 := by omega
  simp only [snapshot, restore, henc, hpos, if_false, hdec]
  funext s
  obtain ⟨hdata, hstate, hnum⟩ := hsame s
  rw [hdata, hstate, hnum]

/-- Every shard is served, and each key is found in the map of its own shard. -/
structure Spread (kv : Data) (st : Shards) : Prop where
  serving : ∀ s, (st s).state = .serving
  here : ∀ key, (st (key2Shard key)).data key = kv key
  finite : ∀ s, FiniteMap (st s).data

theorem spread_init : Spread noData (initShards gid1) where
  serving _ := rfl
  here _ := rfl
  finite _ := finiteMap_noData

variable {kv : Data} {st : Shards}

theorem Spread.doGet (h : Spread kv st) (key : String) :
    ShardServer.doGet st key = (serve kv (.get key)).2 := by
  simp only [ShardServer.doGet, h.serving, h.here, serve, KvCalls.doOp, KvServer.get, reduceCtorEq,
    if_false]
  cases kv key <;> rfl

/-- A write to the key's shard writes to the key and to no other. -/
theorem Spread.setKey (h : Spread kv st) (key : String) (e : KvEntry String) :
    Spread (Function.update kv key (some e)) (ShardServer.setKey st (key2Shard key) key e) where
  serving s := by
    unfold ShardServer.setKey
    by_cases hs : s = key2Shard key
    · rw [hs, Function.update_self]
      exact h.serving _
    · rw [Function.update_of_ne hs]
      exact h.serving s
  here k := by
    unfold ShardServer.setKey
    by_cases hs : key2Shard k = key2Shard key
    · rw [hs, Function.update_self]
      dsimp only
      by_cases hk : k = key
      · rw [hk, Function.update_self, Function.update_self]
      · rw [Function.update_of_ne hk, Function.update_of_ne hk, ← hs]
        exact h.here k
    · have hk : k ≠ key := fun e => hs (congrArg key2Shard e)
      rw [Function.update_of_ne hs, Function.update_of_ne hk]
      exact h.here k
  finite s := by
    unfold ShardServer.setKey
    by_cases hs : s = key2Shard key
    · rw [hs, Function.update_self]
      exact (h.finite _).update key e
    · rw [Function.update_of_ne hs]
      exact h.finite s

theorem Spread.doPut (h : Spread kv st) (key value : String) (version : ℕ) :
    (ShardServer.doPut st key value version).2 = (put kv key value version).2 ∧
      Spread (put kv key value version).1 (ShardServer.doPut st key value version).1 := by
  simp only [ShardServer.doPut, h.serving, h.here, put, ne_eq, not_true_eq_false, if_false]
  cases kv key with
  | none =>
    by_cases hv : version = 0
    · simp only [hv, not_true_eq_false, if_false, if_true]
      exact ⟨trivial, h.setKey key _⟩
    · simp only [hv, not_false_eq_true, if_true, if_false]
      exact ⟨trivial, h⟩
  | some e =>
    by_cases hv : version = e.version
    · simp only [hv, not_true_eq_false, if_false]
      exact ⟨trivial, h.setKey key _⟩
    · simp only [hv, not_false_eq_true, if_true]
      exact ⟨trivial, h⟩

theorem Spread.doOp (h : Spread kv st) (req : Request) :
    (doOp st req).2 = (serve kv req).2 ∧ Spread (serve kv req).1 (Shardgrp.doOp st req).1 := by
  cases req with
  | get key => exact ⟨h.doGet key, h⟩
  | put key value version =>
    obtain ⟨hreply, hnext⟩ := h.doPut key value version
    exact ⟨congrArg ShardServer.Reply.put hreply, hnext⟩

theorem replies_eq (evs : List (Event (Gob B))) :
    (server gid1 B).replies (initShards gid1) evs = serveAll noData (requests evs) := by
  refine (server gid1 B).replies_eq (R := Spread) ?_ ?_ spread_init evs
  · exact fun kv st req h => h.doOp req
  · intro kv st gob h
    have hsame : (server gid1 B).restart gob st = st := restore_snapshot gob h.finite _
    rw [hsame]
    exact h

end Shardgrp

theorem machines_agree {B B' : Type} (reqs : List Request) (evs : List (Event (Kvraft.Gob B)))
    (evs' : List (Event (Shardgrp.Gob B'))) (h : requests evs = reqs) (h' : requests evs' = reqs) :
    (Kvraft.server B).replies noData evs = serveAll noData reqs ∧
    (Shardgrp.server gid1 B').replies (initShards gid1) evs' = serveAll noData reqs := by
  subst h
  exact ⟨Kvraft.replies_eq evs, by rw [Shardgrp.replies_eq, h']⟩

def mapGob : Kvraft.Gob Data where
  encode m := some m
  len _ := 1
  decode m := some (some m)
  roundTrip m _ := ⟨m, some m, rfl, Nat.one_pos, rfl, rfl⟩

def shardsGob : Shardgrp.Gob Shards where
  encode kv := some kv
  len _ := 1
  decode kv := some (fun s => ⟨some (kv s).data, (kv s).state, (kv s).num⟩)
  roundTrip kv _ := ⟨kv, _, rfl, Nat.one_pos, rfl, fun _ => ⟨rfl, rfl, rfl⟩⟩

theorem machines_agree_restarts :
    let reqs : List Request := [.put "10" "x" 0, .get "10", .put "9" "z" 3, .put "10" "y" 1]
    serveAll noData reqs = [.put .ok, .get "x" 1 .ok, .put .errNoKey, .put .ok] ∧
    (Kvraft.server Data).replies noData [.restart mapGob, .request (.put "10" "x" 0),
      .request (.get "10"), .restart mapGob, .request (.put "9" "z" 3),
      .request (.put "10" "y" 1)] = serveAll noData reqs ∧
    (Shardgrp.server gid1 Shards).replies (initShards gid1) [.request (.put "10" "x" 0),
      .restart shardsGob, .request (.get "10"), .request (.put "9" "z" 3), .restart shardsGob,
      .request (.put "10" "y" 1)] = serveAll noData reqs := by
  intro reqs
  exact ⟨by rfl, machines_agree reqs _ _ rfl rfl⟩

end DistributedLabs.KvMachines
