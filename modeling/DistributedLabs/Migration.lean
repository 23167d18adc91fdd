import DistributedLabs.Runs
import DistributedLabs.ShardServer

set_option autoImplicit false

/-!
# Shard migration

`completeChange` of `shardkv1/shardctrler/shardctrler.go`, run by any number of
controllers over the groups, with clients that call `Get` and `Put`. A group is one state
machine. A request, once sent, may take effect at any later time and any number of times;
its reply may be lost. Giving up after 100 tries is one way to stop.
-/
namespace DistributedLabs.Migration

open Handoff KvServer Runs ShardCfg ShardServer

structure ConfigChain where
  config : ℕ → ShardConfig
  increasing : ∀ k, (config k).num < (config (k + 1)).num
  assigned : ∀ k s, (config k).shards s ≠ 0
  served : ∀ k s, ((config k).groups.lookup ((config k).shards s)).getD [] ≠ []
  first : ∀ s, (config 0).shards s = gid1

def clerkFor (old new : ShardConfig) (gid : Tgid) : Option Tgid :=
  let srvs := (old.groups.lookup gid).getD []
  let found := if srvs.length = 0 then (new.groups.lookup gid).getD [] else srvs
  if gid = 0 then none
  else if found.length = 0 then none
  else some gid

inductive Phase where
  | freeze | install | delete
deriving DecidableEq

/-- A run of `completeChange` from configuration `index` to the next: the shard it is at,
    and what it has for `state`. -/
structure Mover where
  index : ℕ
  shard : ℕ
  phase : Phase
  state : Option Data

inductive Task where
  | skipShard
  | skipPhase
  | request (gid : Tgid) (r : Request)

def phaseTask (old new : ShardConfig) (s : Tshid) (phase : Phase) (state : Option Data) : Task :=
  match phase with
  | .freeze =>
    match clerkFor old new (old.shards s) with
    | none => .skipPhase
    | some src => .request src (.freeze s new.num)
  | .install =>
    match clerkFor old new (new.shards s) with
    | none => .skipPhase
    | some dst => .request dst (.install s state new.num)
  | .delete =>
    match clerkFor old new (old.shards s) with
    | none => .skipPhase
    | some src => .request src (.delete s new.num)

def completeChange (old new : ShardConfig) (m : Mover) : Option Task :=
  if h : m.shard < nShards then
    let s : Tshid := ⟨m.shard, h⟩
    if old.shards s = new.shards s then some .skipShard
    else some (phaseTask old new s m.phase m.state)
  else none

def Mover.nextShard (m : Mover) : Mover := ⟨m.index, m.shard + 1, .freeze, none⟩

def Mover.nextPhase (m : Mover) (state : Option Data) : Mover :=
  match m.phase with
  | .freeze => { m with phase := .install, state := state }
  | .install => { m with phase := .delete }
  | .delete => m.nextShard

def Mover.answer (m : Mover) : Reply → Mover
  | .freeze state _ _ => m.nextPhase state
  | _ => m.nextPhase m.state

/-- Whether a reply to `r` answers `r'`; the state of an install is not compared. -/
def sameRequest : Request → Request → Bool
  | .get key, .get key' => key = key'
  | .put key value version, .put key' value' version' =>
    key = key' ∧ value = value' ∧ version = version'
  | .freeze s num, .freeze s' num' => s = s' ∧ num = num'
  | .install s _ num, .install s' _ num' => s = s' ∧ num = num'
  | .delete s num, .delete s' num' => s = s' ∧ num = num'
  | _, _ => false

structure PutArgs where
  key : String
  value : String
  version : ℕ
deriving DecidableEq

inductive Call where
  | get (key : String)
  | put (args : PutArgs)

def Call.key : Call → String
  | .get key => key
  | .put args => args.key

def Call.request : Call → Request
  | .get key => .get key
  | .put args => .put args.key args.value args.version

/-- A client is in the loop of `Clerk.Get` or `Clerk.Put`: before its `Query`, or waiting
    for the group it found. `before` counts the writes answered OK when the call began. -/
inductive Client where
  | idle
  | called (call : Call) (before : ℕ)
  | sent (call : Call) (before : ℕ) (gid : Tgid)

/-- `accepted` lists the `Put`s that groups answered OK; nothing reads it. -/
structure World (I J : Type) where
  groups : Tgid → Shards
  inflight : List (Tgid × Request)
  movers : I → Option Mover
  clients : J → Client
  published : ℕ
  accepted : List PutArgs

inductive Recipient (I J : Type) where
  | nobody
  | mover (c : I)
  | client (j : J)

inductive Label (I J : Type) where
  | start (c : I) (k : ℕ)
  | send (c : I)
  | skip (c : I)
  | finish (c : I)
  | stop (c : I)
  | call (j : J) (call : Call)
  | route (j : J) (gid : Tgid)
  | retry (j : J)
  /-- A group carries out the request at place `i`; the reply gets to `dest`. -/
  | serve (i : ℕ) (dest : Recipient I J)

variable {I J : Type} [DecidableEq I] [DecidableEq J]

def World.setMover (w : World I J) (c : I) (m : Option Mover) : World I J :=
  { w with movers := Function.update w.movers c m }

def World.setClient (w : World I J) (j : J) (s : Client) : World I J :=
  { w with clients := Function.update w.clients j s }

def World.post (w : World I J) (gid : Tgid) (r : Request) : World I J :=
  { w with inflight := w.inflight ++ [(gid, r)] }

def acceptedBy : Request → Reply → List PutArgs
  | .put key value version, .put .ok => [⟨key, value, version⟩]
  | _, _ => []

def World.apply (w : World I J) (gid : Tgid) (r : Request) : World I J :=
  let res := doOp (w.groups gid) r
  { w with
    groups := Function.update w.groups gid res.1
    accepted := w.accepted ++ acceptedBy r res.2 }

def Reply.wrongGroup : Reply → Bool
  | .get _ _ .errWrongGroup => true
  | .put .errWrongGroup => true
  | _ => false

variable (chain : ConfigChain)

def World.task (w : World I J) (c : I) : Option (Mover × Task) :=
  (w.movers c).bind fun m =>
    (completeChange (chain.config m.index) (chain.config (m.index + 1)) m).map fun t => (m, t)

def deliver (w : World I J) (gid : Tgid) (r : Request) (reply : Reply) :
    Recipient I J → Option (World I J → World I J)
  | .nobody => some id
  | .mover c =>
    match w.task chain c with
    | some (m, .request gid' r') =>
      if gid = gid' ∧ sameRequest r r' then
        some fun v => v.setMover c (some (m.answer reply))
      else none
    | _ => none
  | .client j =>
    match w.clients j with
    | .sent call before gid' =>
      if gid = gid' ∧ sameRequest r call.request then
        some fun v => v.setClient j (if Reply.wrongGroup reply then .called call before else .idle)
      else none
    | _ => none

/-- `routes k s gid`: with configuration `k` published, a client may send requests for
    shard `s` to `gid`. -/
def exec (routes : ℕ → Tshid → Tgid → Bool) (w : World I J) : Label I J → Option (World I J)
  | .start c k =>
    if (w.movers c).isNone ∧ k ≤ w.published then
      some (w.setMover c (some ⟨k, 0, .freeze, none⟩))
    else none
  | .send c =>
    match w.task chain c with
    | some (_, .request gid r) => some (w.post gid r)
    | _ => none
  | .skip c =>
    match w.task chain c with
    | some (m, .skipShard) => some (w.setMover c (some m.nextShard))
    | some (m, .skipPhase) => some (w.setMover c (some (m.nextPhase m.state)))
    | _ => none
  | .finish c =>
    match w.movers c with
    | some m =>
      if m.shard < nShards then none
      else some { w.setMover c none with published := max w.published (m.index + 1) }
    | none => none
  | .stop c => some (w.setMover c none)
  | .call j call =>
    match w.clients j with
    | .idle => some (w.setClient j (.called call w.accepted.length))
    | _ => none
  | .route j gid =>
    match w.clients j with
    | .called call before =>
      if routes w.published (key2Shard call.key) gid then
        some ((w.setClient j (.sent call before gid)).post gid call.request)
      else none
    | _ => none
  | .retry j =>
    match w.clients j with
    | .sent call before _ => some (w.setClient j (.called call before))
    | _ => none
  | .serve i dest =>
    w.inflight[i]?.bind fun msg =>
      let reply := (doOp (w.groups msg.1) msg.2).2
      (deliver chain w msg.1 msg.2 reply dest).map fun f => f (w.apply msg.1 msg.2)

def initially : World I J :=
  ⟨initShards, [], fun _ => none, fun _ => .idle, 0, []⟩

def byQuery (k : ℕ) (s : Tshid) (gid : Tgid) : Bool := (chain.config k).shards s = gid

def anywhere (_ : ℕ) (_ : Tshid) (_ : Tgid) : Bool := true

def migration (I J : Type) [DecidableEq I] [DecidableEq J] (routes : ℕ → Tshid → Tgid → Bool) :
    Machine (World I J) (Label I J) where
  init w := w = initially
  step w l v := exec chain routes w l = some v

end DistributedLabs.Migration
