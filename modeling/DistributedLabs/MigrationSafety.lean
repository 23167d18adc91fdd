import DistributedLabs.MigrationInvariant

set_option autoImplicit false

/-!
# Migration keeps every accepted write

At most one group serves a shard, and its data are the accepted `Put`s. A group starts
with the number 0 in its records, so the first number a change uses has to be larger.
-/
namespace DistributedLabs.MigrationSafety

open Handoff KvServer Migration MigrationInvariant Runs ShardCfg ShardServer

variable {I J : Type}

def HoldsWrites (w : World I J) (s : Tshid) (g : Tgid) : Prop :=
  applyAll noData (ofShard s w.accepted) = some (w.groups g s).data

structure ShardSafe (w : World I J) (s : Tshid) : Prop where
  unique : ∀ g g', (w.groups g s).state = .serving → (w.groups g' s).state = .serving → g = g'
  serving : ∀ g, (w.groups g s).state = .serving → HoldsWrites w s g
  frozen : (∀ g, (w.groups g s).state ≠ .serving) → ∃ g, (w.groups g s).state = .frozen ∧
    (∀ g', (w.groups g' s).state = .frozen → g' = g) ∧ HoldsWrites w s g

theorem Inv.shardSafe {chain : ConfigChain} {w : World I J} (h : Inv chain w) (s : Tshid) :
    ShardSafe w s := by
  obtain ⟨d, hd, hset⟩ := h.shards s
  refine ⟨fun g g' hg hg' => ?_, fun g hg => ?_, fun hnone => ?_⟩
  · rcases hset.placed.serving with hno | ⟨x, -, -, honly⟩
    · exact absurd hg (hno g)
    · rw [honly g hg, honly g' hg']
  · rcases hset.placed.serving with hno | ⟨x, -, hdata, honly⟩
    · exact absurd hg (hno g)
    · unfold HoldsWrites
      rw [hd, honly g hg]
      exact congrArg some hdata.symm
  · obtain ⟨g, hfrozen, hdata, honly⟩ := hset.placed.frozen_content hnone
    refine ⟨g, hfrozen, honly, ?_⟩
    unfold HoldsWrites
    rw [hd]
    exact congrArg some hdata.symm

/-- Migration neither loses nor duplicates writes. -/
theorem migration_safe [DecidableEq I] [DecidableEq J] (chain : ConfigChain)
    (hpos : 0 < (chain.config 1).num) {routes : ℕ → Tshid → Tgid → Bool}
    {tr : List (Transition (World I J) (Label I J))} {w : World I J}
    (run : Run (migration chain I J routes) tr w) : ∀ s, ShardSafe w s :=
  fun s => Inv.shardSafe (migration_inv hpos run) s

section Sample

def turns (k : ℕ) (s : Tshid) : Tgid := if k % 2 = 1 ∧ s.val = 0 then 2 else gid1

def alternating (base : ℤ) : ConfigChain where
  config k := ⟨base + k, turns k, [(gid1, ["a"]), (2, ["b"])]⟩
  increasing k := by
    change base + (k : ℤ) < base + ((k + 1 : ℕ) : ℤ)
    omega
  assigned k s := by
    change turns k s ≠ 0
    unfold turns
    split <;> decide
  served k s := by
    change (List.lookup (turns k s) [(gid1, ["a"]), (2, ["b"])]).getD [] ≠ []
    unfold turns
    split <;> decide
  first s := by
    change turns 0 s = gid1
    unfold turns
    rw [if_neg (fun h => absurd h.1 (by decide))]

def calling (j : Bool) (call : Call) (gid : Tgid) : List (Label Unit Bool) :=
  [.call j call, .route j gid]

def phase (i : ℕ) : List (Label Unit Bool) := [.send (), .serve i (.mover ())]

def changing (k i : ℕ) : List (Label Unit Bool) :=
  [.start () k] ++ phase i ++ phase (i + 1) ++ phase (i + 2) ++
    List.replicate 11 (.skip ()) ++ [.finish ()]

def sampleCall : Call := .put ⟨"10", "x", 0⟩

def moveTwice : List (Label Unit Bool) :=
  calling true sampleCall gid1 ++ [.serve 0 (.client true)] ++ changing 0 1 ++
    [.start () 1] ++ phase 4 ++ phase 5

end Sample

theorem migration_safe_moveTwice : ∃ tr w, Run (migration (alternating 1) Unit Bool anywhere) tr w ∧
    w.published = 1 ∧ (w.groups gid1 (key2Shard "10")).data "10" = some ⟨"x", 1⟩ ∧
    ∀ s, ShardSafe w s := by
  have hsome : (replay (exec (alternating 1) anywhere) initially [] moveTwice).map
      (fun r => decide (r.2.published = 1 ∧
        (r.2.groups gid1 (key2Shard "10")).data "10" = some ⟨"x", 1⟩)) = some true := by
    decide +kernel
  obtain ⟨⟨tr, w⟩, hr, hd⟩ := Option.map_eq_some_iff.mp hsome
  obtain ⟨hpub, hdata⟩ := of_decide_eq_true hd
  have hrun : Run (migration (alternating 1) Unit Bool anywhere) tr w :=
    Run.replay (fun _ _ _ h => h) _ (.start rfl) hr
  exact ⟨tr, w, hrun, hpub, hdata, migration_safe (alternating 1) (by decide) hrun⟩

/-- With a configuration number 0 the group it moves a shard to takes the install for a
    repeated one, and the write is lost. -/
theorem number_zero_loses_write : ∃ tr w,
    Run (migration (alternating (-1)) Unit Bool anywhere) tr w ∧ ¬ ∀ s, ShardSafe w s := by
  have hsome : (replay (exec (alternating (-1)) anywhere) initially [] moveTwice).map
      (fun r => decide ((r.2.groups gid1 (key2Shard "10")).state = .serving ∧
        (r.2.groups gid1 (key2Shard "10")).data "10" = none ∧
        r.2.accepted = [⟨"10", "x", 0⟩])) = some true := by
    decide +kernel
  obtain ⟨⟨tr, w⟩, hr, hd⟩ := Option.map_eq_some_iff.mp hsome
  obtain ⟨hserving, hnone, haccepted⟩ := of_decide_eq_true hd
  refine ⟨tr, w, Run.replay (fun _ _ _ h => h) _ (.start rfl) hr, fun h => ?_⟩
  have hholds := (h (key2Shard "10")).serving gid1 hserving
  unfold HoldsWrites at hholds
  rw [haccepted] at hholds
  have hkey : (applyAll noData (ofShard (key2Shard "10") [⟨"10", "x", 0⟩])).map
      (fun d => d "10") = some (some ⟨"x", 1⟩) := by
    decide +kernel
  rw [hholds, Option.map_some, hnone] at hkey
  cases hkey

end DistributedLabs.MigrationSafety
