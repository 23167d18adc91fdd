import Mathlib.Data.Int.Notation
import Mathlib.Data.List.OfFn
import Mathlib.Data.Fintype.Basic
import Mathlib.Data.List.Sort
import Mathlib.Logic.Function.Basic

set_option autoImplicit false

/-!
# Assignments of shards to groups

`shardkv1/shardcfg/shardcfg.go`. `Groups` is a map: a list sorted by gid, one entry
for each. The maps a caller passes are lists in the order they are iterated in.
`log.Fatalf` is `none`.
-/
namespace DistributedLabs.ShardCfg

abbrev Tgid := ℤ

def nShards : ℕ := 12

abbrev Tshid := Fin nShards

def gid1 : Tgid := 1

structure ShardConfig where
  num : ℤ
  shards : Tshid → Tgid
  groups : List (Tgid × List String)

-- Field by field: the derived instance would rewrite along an equality of functions.
instance : DecidableEq ShardConfig := fun a b =>
  decidable_of_iff (a.num = b.num ∧ a.shards = b.shards ∧ a.groups = b.groups) (by
    cases a
    cases b
    simp only [ShardConfig.mk.injEq])

namespace ShardConfig

def makeShardConfig : ShardConfig := ⟨0, fun _ => 0, []⟩

def copy (cfg : ShardConfig) : ShardConfig :=
  { makeShardConfig with num := cfg.num, shards := cfg.shards, groups := cfg.groups }

def setGroup (gid : Tgid) (servers : List String) :
    List (Tgid × List String) → List (Tgid × List String)
  | [] => [(gid, servers)]
  | g :: gs =>
    if gid < g.1 then (gid, servers) :: g :: gs
    else if gid = g.1 then (gid, servers) :: gs
    else g :: setGroup gid servers gs

def count (shards : Tshid → Tgid) (gid : Tgid) : ℕ := (List.ofFn shards).count gid

/-- The loop of `analyze` over the sorted gids; the results are `mg`, `mn`, `lg`, `ln`. -/
def analyzeLoop (shards : Tshid → Tgid) :
    List Tgid → Tgid × ℤ × Tgid × ℤ → Tgid × ℤ × Tgid × ℤ
  | [], r => r
  | g :: gs, (mg, mn, lg, ln) =>
    let n : ℤ := count shards g
    let least := if n < ln then (g, n) else (lg, ln)
    let most := if mn < n then (g, n) else (mg, mn)
    analyzeLoop shards gs (most.1, most.2, least.1, least.2)

def analyze (c : ShardConfig) : Tgid × ℤ × Tgid × ℤ :=
  analyzeLoop c.shards ((c.groups.map Prod.fst).insertionSort (· ≤ ·)) (-1, -1, -1, 257)

def least (c : ShardConfig) : Tgid := (analyze c).2.2.1

/-- The first loop of `Rebalance`; the range is over a copy of the shards. -/
def assignAll (c : ShardConfig) : List Tshid → ShardConfig
  | [] => c
  | s :: rest =>
    if (c.groups.lookup (c.shards s)).isSome then assignAll c rest
    else assignAll { c with shards := Function.update c.shards s (least c) } rest

/-- The second loop of `Rebalance`; `none` when the fuel runs out. -/
def moveLoop (c : ShardConfig) : ℕ → Option ShardConfig
  | 0 => none
  | fuel + 1 =>
    let (mg, mn, lg, ln) := analyze c
    if mn < ln + 2 then some c
    else
      match (List.finRange nShards).find? (fun s => decide (c.shards s = mg)) with
      | none => moveLoop c fuel
      | some s => moveLoop { c with shards := Function.update c.shards s lg } fuel

def rebalance (c : ShardConfig) : Option ShardConfig :=
  if c.groups.length < 1 then some { c with shards := fun _ => 0 }
  else moveLoop (assignAll c (List.finRange nShards)) (nShards * nShards + 1)

def sharesServer (c : ShardConfig) (servers : List String) : Bool :=
  c.groups.any (fun g => g.2.any (fun s => servers.contains s))

/-- `Join`, from the point of the iteration where `changed` is as given. -/
def join (cfg : ShardConfig) (changed : Bool) :
    List (Tgid × List String) → Option (Bool × ShardConfig)
  | [] => if changed then some (true, { cfg with num := cfg.num + 1 }) else none
  | (gid, servers) :: rest =>
    if (cfg.groups.lookup gid).isSome then some (false, cfg)
    else if cfg.sharesServer servers then none
    else join { cfg with groups := setGroup gid servers cfg.groups } true rest

def leave (cfg : ShardConfig) (changed : Bool) : List Tgid → Option (Bool × ShardConfig)
  | [] => if changed then some (true, { cfg with num := cfg.num + 1 }) else none
  | gid :: rest =>
    if (cfg.groups.lookup gid).isNone then some (false, cfg)
    else leave { cfg with groups := cfg.groups.filter (fun g => decide (g.1 ≠ gid)) } true rest

def balance (r : Bool × ShardConfig) : Option (Bool × ShardConfig) :=
  if r.1 then r.2.rebalance.map (fun c => (true, c)) else some r

def joinBalance (cfg : ShardConfig) (servers : List (Tgid × List String)) :
    Option (Bool × ShardConfig) := do
  let r ← cfg.join false servers
  balance r

def leaveBalance (cfg : ShardConfig) (gids : List Tgid) : Option (Bool × ShardConfig) := do
  let r ← cfg.leave false gids
  balance r

theorem moveLoop_num (fuel : ℕ) (c : ShardConfig) {c' : ShardConfig}
    (h : moveLoop c fuel = some c') : c'.num = c.num := by
  induction fuel generalizing c with
  | zero => cases h
  | succ fuel ih =>
    unfold moveLoop at h
    split at h
    split at h
    · cases h
      rfl
    · split at h
      · exact ih c h
      · have hnum := ih _ h
        exact hnum

theorem assignAll_num (l : List Tshid) (c : ShardConfig) : (assignAll c l).num = c.num := by
  induction l generalizing c with
  | nil => rfl
  | cons s l ih =>
    unfold assignAll
    split
    · exact ih c
    · exact ih _

theorem rebalance_num {c c' : ShardConfig} (h : c.rebalance = some c') : c'.num = c.num := by
  unfold rebalance at h
  split at h
  · cases h
    rfl
  · rw [moveLoop_num _ _ h, assignAll_num]

theorem join_num (l : List (Tgid × List String)) (changed : Bool) (c : ShardConfig)
    {c' : ShardConfig} (h : join c changed l = some (true, c')) : c'.num = c.num + 1 := by
  induction l generalizing c changed with
  | nil =>
    unfold join at h
    split at h
    · cases h
      rfl
    · cases h
  | cons x l ih =>
    obtain ⟨gid, servers⟩ := x
    unfold join at h
    split at h
    · cases h
    · split at h
      · cases h
      · have hnum := ih _ _ h
        exact hnum

theorem leave_num (l : List Tgid) (changed : Bool) (c : ShardConfig) {c' : ShardConfig}
    (h : leave c changed l = some (true, c')) : c'.num = c.num + 1 := by
  induction l generalizing c changed with
  | nil =>
    unfold leave at h
    split at h
    · cases h
      rfl
    · cases h
  | cons gid l ih =>
    unfold leave at h
    split at h
    · cases h
    · have hnum := ih _ _ h
      exact hnum

theorem balance_num {r : Bool × ShardConfig} {c' : ShardConfig}
    (h : balance r = some (true, c')) : r.1 = true ∧ c'.num = r.2.num := by
  unfold balance at h
  split at h
  · rename_i hr
    obtain ⟨c, hc, heq⟩ := Option.map_eq_some_iff.mp h
    cases heq
    exact ⟨hr, rebalance_num hc⟩
  · rename_i hr
    cases h
    exact absurd rfl hr

end ShardConfig

inductive Reconfiguration where
  | join (servers : List (Tgid × List String))
  | leave (gids : List Tgid)

/-- A copy of `cfg` that one call has changed; `none` unless it succeeds. -/
def Reconfiguration.apply (r : Reconfiguration) (cfg : ShardConfig) : Option ShardConfig :=
  let result := match r with
    | .join servers => cfg.copy.joinBalance servers
    | .leave gids => cfg.copy.leaveBalance gids
  match result with
  | some (true, new) => some new
  | _ => none

theorem joinBalance_num {cfg new : ShardConfig} {servers : List (Tgid × List String)}
    (h : cfg.joinBalance servers = some (true, new)) : new.num = cfg.num + 1 := by
  obtain ⟨⟨b, d⟩, hj, hb⟩ := Option.bind_eq_some_iff.mp h
  obtain ⟨htrue, hnum⟩ := ShardConfig.balance_num hb
  cases htrue
  rw [hnum, ShardConfig.join_num _ _ _ hj]

theorem leaveBalance_num {cfg new : ShardConfig} {gids : List Tgid}
    (h : cfg.leaveBalance gids = some (true, new)) : new.num = cfg.num + 1 := by
  obtain ⟨⟨b, d⟩, hl, hb⟩ := Option.bind_eq_some_iff.mp h
  obtain ⟨htrue, hnum⟩ := ShardConfig.balance_num hb
  cases htrue
  rw [hnum, ShardConfig.leave_num _ _ _ hl]

theorem Reconfiguration.apply_num {r : Reconfiguration} {cfg new : ShardConfig}
    (h : r.apply cfg = some new) : new.num = cfg.num + 1 := by
  cases r with
  | join servers =>
    unfold Reconfiguration.apply at h
    simp only at h
    split at h
    · rename_i c hc
      cases h
      exact joinBalance_num hc
    · cases h
  | leave gids =>
    unfold Reconfiguration.apply at h
    simp only at h
    split at h
    · rename_i c hc
      cases h
      exact leaveBalance_num hc
    · cases h

end DistributedLabs.ShardCfg
