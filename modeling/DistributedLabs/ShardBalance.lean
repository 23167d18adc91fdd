import DistributedLabs.LoadBalance
import DistributedLabs.ShardCfg

set_option autoImplicit false

/-!
# Rebalancing

`Rebalance` gives every shard without a group to a least loaded one and then moves shards
from the most to the least loaded group until their numbers differ by at most one. Every
move lowers the sum of the squared loads, so the loop ends.
-/
namespace DistributedLabs.ShardBalance
open ShardCfg ShardCfg.ShardConfig LoadBalance

def gids (c : ShardConfig) : Finset Tgid := (c.groups.map Prod.fst).toFinset

theorem mem_gids {c : ShardConfig} {gid : Tgid} :
    gid ∈ gids c ↔ (c.groups.lookup gid).isSome := by
  rw [gids, List.mem_toFinset, List.lookup_isSome_iff, List.mem_map]
  constructor
  · rintro ⟨p, hp, rfl⟩
    exact ⟨p, hp, beq_self_eq_true _⟩
  · rintro ⟨p, hp, heq⟩
    exact ⟨p, hp, (eq_of_beq heq).symm⟩

theorem count_eq_load (shards : Tshid → Tgid) (gid : Tgid) : count shards gid = load shards gid := by
  rw [count, List.count, List.ofFn_eq_map, List.countP_map, List.countP_eq_length_filter, load,
    Finset.card_def]
  have hpred : ((fun x => x == gid) ∘ shards) = fun s => decide (shards s = gid) := by
    funext s
    simp only [Function.comp_apply]
    rfl
  rw [hpred]
  rfl

section analyze
variable (shards : Tshid → Tgid)

/-- The loop of `analyze` is two searches at once, for the largest and for the smallest load. -/
theorem analyzeLoop_eq (l : List Tgid) (most least : Tgid × ℤ) :
    analyzeLoop shards l (most.1, most.2, least.1, least.2) =
      ((keepBest (fun m n => n < m) (fun g => (load shards g : ℤ)) l most).1,
        (keepBest (fun m n => n < m) (fun g => (load shards g : ℤ)) l most).2,
        (keepBest (fun m n => m < n) (fun g => (load shards g : ℤ)) l least).1,
        (keepBest (fun m n => m < n) (fun g => (load shards g : ℤ)) l least).2) := by
  induction l generalizing most least with
  | nil => rfl
  | cons g l ih =>
    rw [analyzeLoop, count_eq_load]
    exact ih _ _

theorem analyze_spec {c : ShardConfig} (h : c.groups ≠ []) : ∃ mg lg,
    analyze c = (mg, (load c.shards mg : ℤ), lg, (load c.shards lg : ℤ)) ∧
      Fullest (gids c) c.shards mg ∧ Emptiest (gids c) c.shards lg := by
  have hmem : ∀ g, g ∈ (c.groups.map Prod.fst).insertionSort (· ≤ ·) ↔ g ∈ gids c := by
    intro g
    rw [List.mem_insertionSort, gids, List.mem_toFinset]
  obtain ⟨⟨g₀, _⟩, hg₀⟩ := List.exists_mem_of_ne_nil _ h
  have hg₀ : g₀ ∈ gids c := by
    rw [gids, List.mem_toFinset]
    exact List.mem_map_of_mem hg₀
  unfold analyze
  generalize (c.groups.map Prod.fst).insertionSort (· ≤ ·) = l at hmem ⊢
  have hcard : load c.shards g₀ ≤ 12 := load_le_card c.shards g₀
  -- a load is at least 0 and at most 12, so neither search ends where it started
  obtain ⟨mg, hmg, hmeq, hmost⟩ := keepBest_spec (fun m n => n < m)
    (fun g => (load c.shards g : ℤ)) (r := (-1, -1)) (fun _ _ h => h.not_gt)
    (fun x y z h k => by omega) ((hmem g₀).mpr hg₀) (by omega)
  obtain ⟨lg, hlg, hleq, hleast⟩ := keepBest_spec (fun m n => m < n)
    (fun g => (load c.shards g : ℤ)) (r := (-1, 257)) (fun _ _ h => h.not_gt)
    (fun x y z h k => by omega) ((hmem g₀).mpr hg₀) (by omega)
  refine ⟨mg, lg, ?_, ⟨(hmem mg).mp hmg, fun g hg => ?_⟩, ⟨(hmem lg).mp hlg, fun g hg => ?_⟩⟩
  · rw [analyzeLoop_eq c.shards l (-1, -1) (-1, 257), hmeq, hleq]
  · have := hmost g ((hmem g).mpr hg)
    omega
  · have := hleast g ((hmem g).mpr hg)
    omega

end analyze

section moveLoop
variable {c : ShardConfig}

/-- A turn of the second loop moves one shard from a fullest to an emptiest group. -/
inductive Moves (c : ShardConfig) : ShardConfig → Prop where
  | intro (s : Tshid) (lg : Tgid) (most : Fullest (gids c) c.shards (c.shards s))
      (least : Emptiest (gids c) c.shards lg)
      (gap : load c.shards lg + 2 ≤ load c.shards (c.shards s)) :
      Moves c { c with shards := Function.update c.shards s lg }

theorem moveLoop_succ (h : c.groups ≠ []) (fuel : ℕ) :
    (Level (gids c) c.shards ∧ moveLoop c (fuel + 1) = some c) ∨
      ∃ c', Moves c c' ∧ moveLoop c (fuel + 1) = moveLoop c' fuel := by
  obtain ⟨mg, lg, hanalyze, hmost, hleast⟩ := analyze_spec h
  rw [moveLoop, hanalyze]
  dsimp only
  by_cases hgap : (load c.shards mg : ℤ) < load c.shards lg + 2
  · rw [if_pos hgap]
    refine .inl ⟨fun g hg k hk => ?_, rfl⟩
    have hle := hmost.2 g hg
    have hge := hleast.2 k hk
    omega
  · rw [if_neg hgap]
    obtain ⟨s, hs⟩ : ∃ s, c.shards s = mg := exists_of_load_pos (by omega)
    cases hfind : (List.finRange nShards).find? (fun s => decide (c.shards s = mg)) with
    | none =>
      have hall := List.find?_eq_none.mp hfind s (List.mem_finRange s)
      simp [hs] at hall
    | some t =>
      have ht : c.shards t = mg := by simpa using List.find?_some hfind
      subst ht
      exact .inr ⟨_, .intro t lg hmost hleast (by omega), rfl⟩

theorem Moves.groups {c' : ShardConfig} (h : Moves c c') : c'.groups = c.groups := by
  cases h
  rfl

theorem Moves.owned {c' : ShardConfig} (h : Moves c c') (hc : ∀ s, c.shards s ∈ gids c) (t : Tshid) :
    c'.shards t ∈ gids c' := by
  cases h with
  | intro s lg most least gap =>
    change Function.update c.shards s lg t ∈ gids c
    by_cases ht : t = s
    · subst ht
      rw [Function.update_self]
      exact least.1
    · rw [Function.update_of_ne ht]
      exact hc t

theorem Moves.potential_lt {c' : ShardConfig} (h : Moves c c') :
    potential (gids c') c'.shards < potential (gids c) c.shards := by
  cases h with
  | intro s lg most least gap => exact potential_move most.1 least.1 gap

/-- With enough fuel the second loop ends; what its turns keep holds at the end, and the loads are
    level. -/
theorem moveLoop_rule {P : ShardConfig → Prop} (hP : ∀ c c', P c → Moves c c' → P c') (fuel : ℕ)
    (h : c.groups ≠ []) (hc : P c) (hfuel : potential (gids c) c.shards < fuel) :
    ∃ c', moveLoop c fuel = some c' ∧ P c' ∧ Level (gids c') c'.shards := by
  induction fuel generalizing c with
  | zero => omega
  | succ fuel ih =>
    rcases moveLoop_succ h fuel with ⟨hlevel, hend⟩ | ⟨c', hmove, hnext⟩
    · exact ⟨c, hend, hc, hlevel⟩
    · have hlt := hmove.potential_lt
      have hgroups : c'.groups ≠ [] := by
        rw [hmove.groups]
        exact h
      rw [hnext]
      exact ih hgroups (hP c c' hc hmove) (by omega)

end moveLoop

section assignAll
variable {c : ShardConfig}

theorem least_emptiest (h : c.groups ≠ []) : Emptiest (gids c) c.shards (least c) := by
  obtain ⟨mg, lg, hanalyze, _, hleast⟩ := analyze_spec h
  rw [least, hanalyze]
  exact hleast

theorem assignAll_rule {P : ShardConfig → Prop}
    (hP : ∀ (c : ShardConfig) (s : Tshid) (lg : Tgid), P c → c.shards s ∉ gids c →
      Emptiest (gids c) c.shards lg → P { c with shards := Function.update c.shards s lg })
    (l : List Tshid) (h : c.groups ≠ []) (hc : P c) : P (assignAll c l) := by
  induction l generalizing c with
  | nil => exact hc
  | cons s l ih =>
    unfold assignAll
    split_ifs with hs
    · exact ih h hc
    · exact ih h (hP c s (least c) hc (fun hm => hs (mem_gids.mp hm)) (least_emptiest h))

theorem assignAll_groups (l : List Tshid) (h : c.groups ≠ []) :
    (assignAll c l).groups = c.groups :=
  assignAll_rule (P := fun x => x.groups = c.groups) (fun _ _ _ hx _ _ => hx) l h rfl

theorem assignAll_keeps (l : List Tshid) (h : c.groups ≠ []) {t : Tshid} (ht : c.shards t ∈ gids c) :
    (assignAll c l).shards t = c.shards t := by
  have hkeep := assignAll_rule (c := c)
    (P := fun x => x.groups = c.groups ∧ x.shards t = c.shards t) ?_ l h ⟨rfl, rfl⟩
  · exact hkeep.2
  · rintro x s lg ⟨hg, hx⟩ hs _
    refine ⟨hg, ?_⟩
    have hne : t ≠ s := by
      rintro rfl
      rw [gids, hg, hx] at hs
      exact hs ht
    exact (Function.update_of_ne hne _ _).trans hx

theorem assignAll_owned (l : List Tshid) (h : c.groups ≠ []) {t : Tshid} (ht : t ∈ l) :
    (assignAll c l).shards t ∈ gids c := by
  induction l generalizing c with
  | nil => cases ht
  | cons s l ih =>
    unfold assignAll
    rcases List.mem_cons.mp ht with rfl | ht'
    · split_ifs with hs
      · have hmem := mem_gids.mpr hs
        rw [assignAll_keeps l h hmem]
        exact hmem
      · have hleast : Function.update c.shards t (least c) t ∈ gids c := by
          rw [Function.update_self]
          exact (least_emptiest h).1
        have hkeep := assignAll_keeps (c := { c with shards := Function.update c.shards t (least c) })
          l h hleast
        rw [hkeep]
        exact hleast
    · split_ifs
      · exact ih h ht'
      · exact ih h ht'

theorem assignAll_of_owned (l : List Tshid) (h : ∀ s, c.shards s ∈ gids c) : assignAll c l = c := by
  induction l with
  | nil => rfl
  | cons s l ih =>
    unfold assignAll
    rw [if_pos (mem_gids.mp (h s))]
    exact ih

end assignAll

section rebalance
variable {c : ShardConfig}

theorem rebalance_rule {P : ShardConfig → Prop}
    (hP : ∀ c c', P c → Moves c c' → P c') (h : c.groups ≠ [])
    (hc : P (assignAll c (List.finRange nShards))) :
    ∃ c', c.rebalance = some c' ∧ P c' ∧ Level (gids c') c'.shards := by
  have hlen : ¬ c.groups.length < 1 := by
    have := List.length_pos_of_ne_nil h
    omega
  unfold rebalance
  rw [if_neg hlen]
  refine moveLoop_rule hP _ ?_ hc ?_
  · rw [assignAll_groups _ h]
    exact h
  · have hle := potential_le (gids (assignAll c (List.finRange nShards)))
      (assignAll c (List.finRange nShards)).shards
    rw [Fintype.card_fin] at hle
    omega

/-- A level assignment to existing groups is left alone. -/
theorem rebalance_fixed (h : c.groups ≠ []) (hown : ∀ s, c.shards s ∈ gids c)
    (hlevel : Level (gids c) c.shards) : c.rebalance = some c := by
  have hlen : ¬ c.groups.length < 1 := by
    have := List.length_pos_of_ne_nil h
    omega
  unfold rebalance
  rw [if_neg hlen, assignAll_of_owned _ hown]
  rcases moveLoop_succ h (nShards * nShards) with ⟨_, hend⟩ | ⟨c', hmove, _⟩
  · exact hend
  · cases hmove with
    | intro s lg most least gap =>
      have := hlevel _ most.1 _ least.1
      omega

structure Rebalanced (c c' : ShardConfig) : Prop where
  num : c'.num = c.num
  groups : c'.groups = c.groups
  unassigned : c.groups = [] → ∀ s, c'.shards s = 0
  owned : c.groups ≠ [] → ∀ s, c'.shards s ∈ gids c'
  level : c.groups ≠ [] → Level (gids c') c'.shards

theorem rebalance_spec (c : ShardConfig) : ∃ c', c.rebalance = some c' ∧ Rebalanced c c' := by
  by_cases h : c.groups = []
  · refine ⟨{ c with shards := fun _ => 0 }, ?_, rfl, rfl, fun _ _ => rfl, ?_, ?_⟩
    · simp [rebalance, h]
    · exact fun hne => absurd h hne
    · exact fun hne => absurd h hne
  · have hstart : ∀ s, (assignAll c (List.finRange nShards)).shards s ∈
        gids (assignAll c (List.finRange nShards)) := by
      intro s
      have hs := assignAll_owned (List.finRange nShards) h (List.mem_finRange s)
      rw [gids, assignAll_groups _ h]
      exact hs
    have hmoves : ∀ x y : ShardConfig, (x.groups = c.groups ∧ ∀ s, x.shards s ∈ gids x) →
        Moves x y → y.groups = c.groups ∧ ∀ s, y.shards s ∈ gids y := by
      rintro x y ⟨hg, hown⟩ hmove
      exact ⟨hmove.groups.trans hg, hmove.owned hown⟩
    obtain ⟨c', hr, ⟨hg, hown⟩, hlevel⟩ :=
      rebalance_rule hmoves h ⟨assignAll_groups _ h, hstart⟩
    exact ⟨c', hr, rebalance_num hr, hg, fun he => absurd he h, fun _ => hown, fun _ => hlevel⟩

theorem Rebalanced.of_rebalance {c' : ShardConfig} (h : c.rebalance = some c') :
    Rebalanced c c' := by
  obtain ⟨d, hd, hr⟩ := rebalance_spec c
  rw [h] at hd
  cases hd
  exact hr

theorem Rebalanced.again {c' : ShardConfig} (h : Rebalanced c c') : c'.rebalance = some c' := by
  by_cases hc : c.groups = []
  · have hlen : c'.groups.length < 1 := by
      rw [h.groups, hc]
      exact Nat.one_pos
    have hshards : (fun _ => 0) = c'.shards := funext (fun s => (h.unassigned hc s).symm)
    rw [rebalance, if_pos hlen, hshards]
  · have hne : c'.groups ≠ [] := by
      rw [h.groups]
      exact hc
    exact rebalance_fixed hne (h.owned hc) (h.level hc)

theorem rebalance_balanced (c : ShardConfig) :
    ∃ c', c.rebalance = some c' ∧ Rebalanced c c' ∧ c'.rebalance = some c' := by
  obtain ⟨c', hr, hbal⟩ := rebalance_spec c
  exact ⟨c', hr, hbal, hbal.again⟩

end rebalance
end DistributedLabs.ShardBalance
