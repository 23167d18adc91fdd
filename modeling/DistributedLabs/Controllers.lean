import DistributedLabs.KvServer
import DistributedLabs.Runs
import DistributedLabs.ShardCfg

set_option autoImplicit false

/-!
# Shard controllers over the configuration store

`shardkv1/shardctrler/shardctrler.go`: any number of controllers over one kvsrv,
interleaved at its single `Get`s and `Put`s. A configuration stands for the string it
is stored as. What `completeChange` does to the shard groups does not touch the store:
here it ends with all shards moved, or gives up.
-/
namespace DistributedLabs.Controllers

open KvServer Runs ShardCfg

inductive Key where
  | configKey | pendingConfigKey
deriving DecidableEq

abbrev Store := Key → Option (KvEntry ShardConfig)

def configAt (kv : Store) (key : Key) : Option ShardConfig := (kv key).map KvEntry.value

/-- Where a controller is: before the named read or write of the store, or inside the
    moves of `completeChange`. -/
inductive Pc where
  | idle
  | initCurrent
  | initPending (current : Option ShardConfig)
  | query (new : ShardConfig)
  | claimGet (current cfg : ShardConfig)
  | claimPut (current cfg : ShardConfig) (ver : ℕ)
  | completeChange (old new : ShardConfig)
  | postGet (cfg : ShardConfig)
  | postPut (cfg : ShardConfig) (ver : ℕ)

instance (pc : Pc) : Decidable (pc = .idle) := by
  cases pc with
  | idle => exact isTrue rfl
  | _ => exact isFalse Pc.noConfusion

instance (old new : ShardConfig) (pc : Pc) : Decidable (pc = .completeChange old new) := by
  cases pc with
  | completeChange o n =>
    exact decidable_of_iff (o = old ∧ n = new) (by simp only [Pc.completeChange.injEq])
  | _ => exact isFalse Pc.noConfusion

/-- What becomes of a clerk's `Put`: the server runs it and the clerk has the answer, or
    runs it and the clerk returns `ErrMaybe`, or the clerk returns `ErrMaybe` and the
    server never saw it. -/
inductive Fate where
  | answered | executed | dropped
deriving DecidableEq

def clerkPut (kv : Store) (key : Key) (cfg : ShardConfig) (ver : ℕ) : Fate → Store × Err
  | .answered => put kv key cfg ver
  | .executed => ((put kv key cfg ver).1, .errMaybe)
  | .dropped => (kv, .errMaybe)

def initController (current pending : Option ShardConfig) : Pc :=
  match pending, current with
  | some p, some c => if p.num ≤ c.num then .idle else .completeChange c p
  | _, _ => .idle

def changeConfigTo (old : Option ShardConfig) (new : ShardConfig) : Pc :=
  match old with
  | none => .idle
  | some old => if new.num ≤ old.num then .idle else .claimGet old new

def claimPendingConfig (current cfg : ShardConfig) (pending : Option (KvEntry ShardConfig)) : Pc :=
  match pending with
  | none => .claimPut current cfg 0
  | some e =>
    if e.value.num = cfg.num ∧ e.value = cfg then .completeChange current cfg
    else if current.num < e.value.num then .idle
    else .claimPut current cfg e.version

def postConfig (cfg : ShardConfig) (current : Option (KvEntry ShardConfig)) : Pc :=
  match current with
  | none => .postPut cfg 0
  | some e => if cfg.num ≤ e.value.num then .idle else .postPut cfg e.version

def onGet (kv : Store) : Pc → Option Pc
  | .initCurrent => some (.initPending (configAt kv .configKey))
  | .initPending current => some (initController current (configAt kv .pendingConfigKey))
  | .query new => some (changeConfigTo (configAt kv .configKey) new)
  | .claimGet current cfg => some (claimPendingConfig current cfg (get kv .pendingConfigKey).1)
  | .postGet cfg => some (postConfig cfg (get kv .configKey).1)
  | _ => none

def onPut (kv : Store) (fate : Fate) : Pc → Option (Store × Pc)
  | .claimPut current cfg ver =>
    let r := clerkPut kv .pendingConfigKey cfg ver fate
    some (r.1, if r.2 = .ok then .completeChange current cfg else .claimGet current cfg)
  | .postPut cfg ver =>
    let r := clerkPut kv .configKey cfg ver fate
    some (r.1, if r.2 = .ok then .idle else .postGet cfg)
  | _ => none

/-- `known` holds what a controller's own `Query`s returned. -/
structure World (I : Type) where
  kv : Store
  pc : I → Pc
  known : I → List ShardConfig

inductive Label (I : Type) where
  | query (c : I)
  | initController (c : I)
  /-- A copy of `base` is changed by `r` and passed on. -/
  | changeConfigTo (c : I) (base : ShardConfig) (r : Reconfiguration)
  | get (c : I)
  | put (c : I) (fate : Fate)
  /-- The moves of `completeChange` are over; `all` unless it gave up. -/
  | moved (c : I) (all : Bool)
  | stop (c : I)

variable {I : Type} [DecidableEq I]

def World.goto (w : World I) (c : I) (pc : Pc) : World I :=
  { w with pc := Function.update w.pc c pc }

def World.learn (w : World I) (c : I) : World I :=
  let read := (configAt w.kv .configKey).toList
  { w with known := Function.update w.known c (read ++ w.known c) }

def exec (w : World I) : Label I → Option (World I)
  | .query c => some (w.learn c)
  | .initController c => if w.pc c = .idle then some (w.goto c .initCurrent) else none
  | .changeConfigTo c base r =>
    if w.pc c = .idle ∧ base ∈ w.known c then
      (r.apply base).map (fun new => w.goto c (.query new))
    else none
  | .get c => (onGet w.kv (w.pc c)).map (w.goto c)
  | .put c fate => (onPut w.kv fate (w.pc c)).map (fun r => { w.goto c r.2 with kv := r.1 })
  | .moved c all =>
    match w.pc c with
    | .completeChange _ new => some (w.goto c (if all then .postGet new else .idle))
    | _ => none
  | .stop c => some (w.goto c .idle)

def storeOf (first : ShardConfig) (version : ℕ) : Store
  | .configKey => some ⟨first, version⟩
  | .pendingConfigKey => none

def initially (first : ShardConfig) (version : ℕ) : World I :=
  ⟨storeOf first version, fun _ => .idle, fun _ => []⟩

/-- The controllers once `InitConfig` has stored `first`; how often it had to write it
    is left open. -/
def controllers (I : Type) [DecidableEq I] (first : ShardConfig) :
    Machine (World I) (Label I) where
  init w := ∃ version, 1 ≤ version ∧ w = initially first version
  step w l v := exec w l = some v

end DistributedLabs.Controllers
