import DistributedLabs.ShardBalance

set_option autoImplicit false

/-!
# Joining and leaving groups

`JoinBalance` and `LeaveBalance` edit `Groups` and call `Rebalance`, which knows nothing of
who has come or gone. From level assignments it still moves only what it must. A refused
call returns before that, but it may have edited `Groups` already.
-/
namespace DistributedLabs.ShardReconfiguration
open ShardCfg ShardCfg.ShardConfig LoadBalance ShardBalance

section groups
variable {c c' : ShardConfig}

theorem mem_setGroup {g gid : Tgid} {servers : List String} (l : List (Tgid × List String)) :
    g ∈ (setGroup gid servers l).map Prod.fst ↔ g = gid ∨ g ∈ l.map Prod.fst := by
  induction l with
  | nil => simp [setGroup]
  | cons x l ih =>
    unfold setGroup
    split_ifs with hlt heq
    · simp
    · simp [heq]
    · simp only [List.map_cons, List.mem_cons, ih]
      tauto

theorem join_spec (l : List (Tgid × List String)) (changed : Bool)
    (h : join c changed l = some (true, c')) : c'.shards = c.shards ∧
      ∀ g, g ∈ gids c' ↔ g ∈ gids c ∨ g ∈ l.map Prod.fst := by
  induction l generalizing c changed with
  | nil =>
    unfold join at h
    split_ifs at h
    cases h
    exact ⟨rfl, fun g => by simp [gids]⟩
  | cons x l ih =>
    obtain ⟨gid, servers⟩ := x
    unfold join at h
    split_ifs at h
    · cases h
    · obtain ⟨hshards, hmem⟩ := ih true h
      refine ⟨hshards, fun g => ?_⟩
      rw [hmem g, gids, List.mem_toFinset, mem_setGroup, gids, List.mem_toFinset, List.map_cons,
        List.mem_cons]
      tauto

theorem join_nonempty {l : List (Tgid × List String)} (h : join c false l = some (true, c')) :
    c'.groups ≠ [] := by
  cases l with
  | nil => cases h
  | cons x l =>
    intro hnil
    have hmem := ((join_spec _ _ h).2 x.1).mpr (.inr (by simp))
    simp [gids, hnil] at hmem

theorem leave_spec (l : List Tgid) (changed : Bool) (h : leave c changed l = some (true, c')) :
    c'.shards = c.shards ∧ gids c' ⊆ gids c := by
  induction l generalizing c changed with
  | nil =>
    unfold leave at h
    split_ifs at h
    cases h
    exact ⟨rfl, fun g hg => hg⟩
  | cons gid l ih =>
    unfold leave at h
    split_ifs at h
    · cases h
    · obtain ⟨hshards, hsub⟩ := ih true h
      refine ⟨hshards, fun g hg => ?_⟩
      have hg' := hsub hg
      simp only [gids, List.mem_toFinset, List.mem_map, List.mem_filter] at hg' ⊢
      obtain ⟨p, ⟨hp, _⟩, rfl⟩ := hg'
      exact ⟨p, hp, rfl⟩

theorem balance_true {r : Bool × ShardConfig} (h : balance r = some (true, c')) :
    ∃ d, r = (true, d) ∧ d.rebalance = some c' := by
  obtain ⟨b, d⟩ := r
  cases b with
  | false => cases h
  | true =>
    obtain ⟨x, hx, heq⟩ := Option.map_eq_some_iff.mp h
    cases heq
    exact ⟨d, rfl, hx⟩

theorem balance_false {r : Bool × ShardConfig} (h : balance r = some (false, c')) :
    r = (false, c') := by
  obtain ⟨b, d⟩ := r
  cases b with
  | false =>
    cases h
    rfl
  | true =>
    obtain ⟨x, _, heq⟩ := Option.map_eq_some_iff.mp h
    cases heq

theorem joinBalance_spec {l : List (Tgid × List String)} (h : c.joinBalance l = some (true, c')) :
    ∃ d, join c false l = some (true, d) ∧ d.rebalance = some c' := by
  obtain ⟨r, hj, hb⟩ := Option.bind_eq_some_iff.mp h
  obtain ⟨d, rfl, hr⟩ := balance_true hb
  exact ⟨d, hj, hr⟩

theorem leaveBalance_spec {l : List Tgid} (h : c.leaveBalance l = some (true, c')) :
    ∃ d, leave c false l = some (true, d) ∧ d.rebalance = some c' := by
  obtain ⟨r, hl, hb⟩ := Option.bind_eq_some_iff.mp h
  obtain ⟨d, rfl, hr⟩ := balance_true hb
  exact ⟨d, hl, hr⟩

end groups

section moves
variable {c c' : ShardConfig}

inductive Reachable : ShardConfig → Prop where
  | make : Reachable makeShardConfig
  | join {c c' : ShardConfig} (servers : List (Tgid × List String)) (hc : Reachable c)
      (h : c.joinBalance servers = some (true, c')) : Reachable c'
  | leave {c c' : ShardConfig} (left : List Tgid) (hc : Reachable c)
      (h : c.leaveBalance left = some (true, c')) : Reachable c'

structure Balanced (c : ShardConfig) : Prop where
  owned : ∀ s, c.shards s ∈ gids c
  level : Level (gids c) c.shards

theorem balanced_of_rebalance (h : c.rebalance = some c') (hne : c'.groups ≠ []) : Balanced c' := by
  have hr := Rebalanced.of_rebalance h
  have hc : c.groups ≠ [] := by
    rw [← hr.groups]
    exact hne
  exact ⟨hr.owned hc, hr.level hc⟩

theorem Reachable.balanced (h : Reachable c) (hne : c.groups ≠ []) : Balanced c := by
  cases h with
  | make => exact absurd rfl hne
  | join servers hc h =>
    obtain ⟨d, _, hr⟩ := joinBalance_spec h
    exact balanced_of_rebalance hr hne
  | leave left hc h =>
    obtain ⟨d, _, hr⟩ := leaveBalance_spec h
    exact balanced_of_rebalance hr hne

/-- The groups of before are within one of every load, also of the newcomers'. -/
theorem ahead_of_joined {d : ShardConfig} (hb : Balanced c) (hs : d.shards = c.shards) :
    Ahead (gids c) (gids d) d.shards := by
  intro o ho g _
  rw [hs]
  by_cases hg : g ∈ gids c
  · exact hb.level g hg o ho
  · have hzero : load c.shards g = 0 := by
      by_contra hne
      obtain ⟨s, rfl⟩ := exists_of_load_pos (Nat.pos_of_ne_zero hne)
      exact hg (hb.owned s)
    omega

/-- While the loop goes on, its target is one of the newcomers. -/
theorem join_moves {d : ShardConfig} (hb : Balanced c) (hs : d.shards = c.shards)
    (hsub : gids c ⊆ gids d) (hd : d.groups ≠ []) (hr : d.rebalance = some c') (s : Tshid) :
    c'.shards s = c.shards s ∨ c'.shards s ∈ gids d \ gids c := by
  have hassign : assignAll d (List.finRange nShards) = d := by
    apply assignAll_of_owned
    intro t
    rw [hs]
    exact hsub (hb.owned t)
  have hmoves : ∀ x y : ShardConfig,
      (gids x = gids d ∧ Ahead (gids c) (gids d) x.shards ∧
        ∀ t, x.shards t = c.shards t ∨ x.shards t ∈ gids d \ gids c) → Moves x y →
      gids y = gids d ∧ Ahead (gids c) (gids d) y.shards ∧
        ∀ t, y.shards t = c.shards t ∨ y.shards t ∈ gids d \ gids c := by
    rintro x y ⟨hg, hahead, hown⟩ ⟨t, lg, most, least, gap⟩
    rw [hg] at most least
    refine ⟨hg, hahead.move most gap, fun u => ?_⟩
    change Function.update x.shards t lg u = _ ∨ Function.update x.shards t lg u ∈ _
    by_cases hu : u = t
    · subst hu
      rw [Function.update_self]
      exact .inr (Finset.mem_sdiff.mpr ⟨least.1, hahead.not_emptiest most.1 gap⟩)
    · rw [Function.update_of_ne hu]
      exact hown u
  obtain ⟨x, hx, ⟨_, _, hown⟩, _⟩ := rebalance_rule hmoves hd
    (by rw [hassign]; exact ⟨rfl, ahead_of_joined hb hs, fun t => .inl (by rw [hs])⟩)
  rw [hr] at hx
  cases hx
  exact hown s

/-- The shards of those who left keep the loads level, so nothing is left to move. -/
theorem leave_moves {d : ShardConfig} (hb : Balanced c) (hs : d.shards = c.shards)
    (hsub : gids d ⊆ gids c) (hd : d.groups ≠ []) (hr : d.rebalance = some c') {s : Tshid}
    (hown : c.shards s ∈ gids d) : c'.shards s = c.shards s := by
  have hlevel : Level (gids d) d.shards := by
    rw [hs]
    exact fun g hg k hk => hb.level g (hsub hg) k (hsub hk)
  obtain ⟨_, hassigned⟩ := assignAll_rule (c := d)
    (P := fun x => gids x = gids d ∧ Level (gids d) x.shards)
    (fun x t lg hx ht hlg => ⟨hx.1, hx.2.assign (hx.1 ▸ ht) (hx.1 ▸ hlg)⟩)
    (List.finRange nShards) hd ⟨rfl, hlevel⟩
  have hgids : gids (assignAll d (List.finRange nShards)) = gids d := by
    rw [gids, assignAll_groups _ hd, gids]
  have hmoves : ∀ x y : ShardConfig, x = assignAll d (List.finRange nShards) → Moves x y →
      y = assignAll d (List.finRange nShards) := by
    rintro x y rfl ⟨t, lg, most, least, gap⟩
    rw [hgids] at most least
    have hle := hassigned _ most.1 _ least.1
    omega
  obtain ⟨x, hx, rfl, _⟩ := rebalance_rule hmoves hd rfl
  rw [hr] at hx
  cases hx
  rw [assignAll_keeps _ hd (by rw [hs]; exact hown), hs]

theorem moves_only_needed (hc : Reachable c) :
    (∀ servers c', c.joinBalance servers = some (true, c') → ∀ s,
      c'.shards s = c.shards s ∨ c'.shards s ∈ servers.map Prod.fst) ∧
    (∀ left c', c.leaveBalance left = some (true, c') → ∀ s,
      c.shards s ∈ gids c' → c'.shards s = c.shards s) := by
  constructor
  · intro servers c' h s
    obtain ⟨d, hj, hr⟩ := joinBalance_spec h
    obtain ⟨hs, hmem⟩ := join_spec servers false hj
    have hd := join_nonempty hj
    by_cases hne : c.groups = []
    · -- nobody was there before: every group has just joined
      have hgroups := (Rebalanced.of_rebalance hr).groups
      have hown := (balanced_of_rebalance hr (by rw [hgroups]; exact hd)).owned s
      rw [gids, hgroups] at hown
      rcases (hmem _).mp hown with hold | hnew
      · simp [gids, hne] at hold
      · exact .inr hnew
    · rcases join_moves (hc.balanced hne) hs (fun g hg => (hmem g).mpr (.inl hg)) hd hr s with
        hsame | hnew
      · exact .inl hsame
      · obtain ⟨hin, hout⟩ := Finset.mem_sdiff.mp hnew
        exact .inr (((hmem _).mp hin).resolve_left hout)
  · intro left c' h s hs'
    obtain ⟨d, hl, hr⟩ := leaveBalance_spec h
    obtain ⟨hs, hsub⟩ := leave_spec left false hl
    rw [gids, (Rebalanced.of_rebalance hr).groups] at hs'
    have hd : d.groups ≠ [] := by
      intro hnil
      simp [hnil] at hs'
    have hne : c.groups ≠ [] := by
      intro hnil
      have hmem := hsub hs'
      simp [gids, hnil] at hmem
    exact leave_moves (hc.balanced hne) hs hsub hd hr hs'

theorem moves_only_needed_thirdGroup : ∃ c c', Reachable c ∧
    c.joinBalance [(3, ["c"])] = some (true, c') ∧ load c.shards 1 = 6 ∧ load c'.shards 3 = 4 ∧
    ∀ s, c'.shards s = c.shards s ∨ c'.shards s ∈ [((3 : Tgid), ["c"])].map Prod.fst := by
  have hsome : (makeShardConfig.joinBalance [(1, ["a"]), (2, ["b"])]).bind (fun r =>
      (r.2.joinBalance [(3, ["c"])]).map (fun q => decide (r.1 = true ∧ q.1 = true ∧
        load r.2.shards 1 = 6 ∧ load q.2.shards 3 = 4))) = some true := by decide +kernel
  obtain ⟨⟨b, c⟩, hc, hrest⟩ := Option.bind_eq_some_iff.mp hsome
  obtain ⟨⟨b', c'⟩, hc', hd⟩ := Option.map_eq_some_iff.mp hrest
  obtain ⟨rfl, rfl, hsix, hfour⟩ := of_decide_eq_true hd
  have hreach : Reachable c := .join _ .make hc
  exact ⟨c, c', hreach, hc', hsix, hfour, (moves_only_needed hreach).1 _ _ hc'⟩

end moves

section refusals
variable {c c' : ShardConfig}

def call (c : ShardConfig) : Reconfiguration → Option (Bool × ShardConfig)
  | .join servers => c.joinBalance servers
  | .leave left => c.leaveBalance left

def OffendsFirst (c : ShardConfig) : Reconfiguration → Prop
  | .join servers => ∃ x ∈ servers.head?, x.1 ∈ gids c
  | .leave left => ∃ gid ∈ left.head?, gid ∉ gids c

theorem length_setGroup {gid : Tgid} {servers : List String} (l : List (Tgid × List String))
    (h : gid ∉ l.map Prod.fst) : (setGroup gid servers l).length = l.length + 1 := by
  induction l with
  | nil => rfl
  | cons x l ih =>
    simp only [List.map_cons, List.mem_cons, not_or] at h
    unfold setGroup
    rw [if_neg h.1]
    split_ifs
    · rfl
    · rw [List.length_cons, ih h.2, List.length_cons]

theorem length_filter_lt {gid : Tgid} (l : List (Tgid × List String)) (h : gid ∈ l.map Prod.fst) :
    (l.filter (fun g => decide (g.1 ≠ gid))).length < l.length := by
  obtain ⟨p, hp, rfl⟩ := List.mem_map.mp h
  exact List.length_filter_lt_length_iff_exists.mpr ⟨p, hp, by simp⟩

/-- Before it is refused a join may have added groups, but nothing else. -/
theorem join_refused (l : List (Tgid × List String)) (changed : Bool)
    (h : join c changed l = some (false, c')) : c'.num = c.num ∧ c'.shards = c.shards ∧
      c.groups.length ≤ c'.groups.length := by
  induction l generalizing c changed with
  | nil =>
    unfold join at h
    split_ifs at h
    cases h
  | cons x l ih =>
    obtain ⟨gid, servers⟩ := x
    unfold join at h
    split_ifs at h with hin
    · cases h
      exact ⟨rfl, rfl, le_refl _⟩
    · obtain ⟨hnum, hshards, hlen⟩ := ih true h
      have hnew : gid ∉ c.groups.map Prod.fst := by
        rwa [← mem_gids, gids, List.mem_toFinset] at hin
      rw [length_setGroup _ hnew] at hlen
      exact ⟨hnum, hshards, by omega⟩

theorem leave_refused (l : List Tgid) (changed : Bool)
    (h : leave c changed l = some (false, c')) : c'.num = c.num ∧ c'.shards = c.shards ∧
      c'.groups.length ≤ c.groups.length := by
  induction l generalizing c changed with
  | nil =>
    unfold leave at h
    split_ifs at h
    cases h
  | cons gid l ih =>
    unfold leave at h
    split_ifs at h
    · cases h
      exact ⟨rfl, rfl, le_refl _⟩
    · obtain ⟨hnum, hshards, hlen⟩ := ih true h
      exact ⟨hnum, hshards, hlen.trans (List.length_filter_le _ _)⟩

theorem join_unchanged_iff {l : List (Tgid × List String)}
    (h : join c false l = some (false, c')) :
    c'.groups = c.groups ↔ ∃ x ∈ l.head?, x.1 ∈ gids c := by
  cases l with
  | nil => cases h
  | cons x l =>
    obtain ⟨gid, servers⟩ := x
    simp only [List.head?_cons, Option.mem_some_iff, exists_eq_left']
    unfold join at h
    split_ifs at h with hin
    · cases h
      exact ⟨fun _ => mem_gids.mpr hin, fun _ => rfl⟩
    · rw [← mem_gids] at hin
      have hlen := (join_refused l true h).2.2
      rw [length_setGroup _ (by rwa [gids, List.mem_toFinset] at hin)] at hlen
      refine ⟨fun hsame => ?_, fun hmem => absurd hmem hin⟩
      rw [hsame] at hlen
      omega

theorem leave_unchanged_iff {l : List Tgid} (h : leave c false l = some (false, c')) :
    c'.groups = c.groups ↔ ∃ gid ∈ l.head?, gid ∉ gids c := by
  cases l with
  | nil => cases h
  | cons gid l =>
    simp only [List.head?_cons, Option.mem_some_iff, exists_eq_left']
    unfold leave at h
    split_ifs at h with hout
    · cases h
      rw [mem_gids, Option.not_isSome_iff_eq_none, ← Option.isNone_iff_eq_none]
      exact ⟨fun _ => hout, fun _ => rfl⟩
    · have hin : gid ∈ gids c := by
        rw [mem_gids]
        simpa using hout
      have hlen := (leave_refused l true h).2.2
      have hlt := length_filter_lt c.groups (by rwa [gids, List.mem_toFinset] at hin)
      refine ⟨fun hsame => ?_, fun hmem => absurd hin hmem⟩
      dsimp only at hlen
      rw [hsame] at hlen
      omega

/-- A refused call keeps `Num` and `Shards`; it keeps `Groups` only if nothing came before the
    offending gid. -/
theorem refused_unchanged_iff (r : Reconfiguration) (h : call c r = some (false, c')) :
    c'.num = c.num ∧ c'.shards = c.shards ∧ (c'.groups = c.groups ↔ OffendsFirst c r) := by
  cases r with
  | join servers =>
    obtain ⟨x, hj, hb⟩ := Option.bind_eq_some_iff.mp h
    rw [balance_false hb] at hj
    obtain ⟨hnum, hshards, _⟩ := join_refused servers false hj
    exact ⟨hnum, hshards, join_unchanged_iff hj⟩
  | leave left =>
    obtain ⟨x, hl, hb⟩ := Option.bind_eq_some_iff.mp h
    rw [balance_false hb] at hl
    obtain ⟨hnum, hshards, _⟩ := leave_refused left false hl
    exact ⟨hnum, hshards, leave_unchanged_iff hl⟩

def single : ShardConfig := ⟨1, fun _ => 1, [(1, ["a"])]⟩

theorem refused_unchanged_rejoin : ∃ c', call single (.join [(1, ["b"]), (2, ["d"])]) =
    some (false, c') ∧ c'.num = 1 ∧ c'.shards = single.shards ∧ c'.groups = single.groups := by
  have h : call single (.join [(1, ["b"]), (2, ["d"])]) = some (false, single) := rfl
  obtain ⟨hnum, hshards, hgroups⟩ := refused_unchanged_iff _ h
  exact ⟨single, h, hnum, hshards, hgroups.mpr ⟨_, rfl, by decide⟩⟩

/-- The refused leave has removed the only group, the refused join has added one. -/
theorem refused_call_edits :
    (∃ c', single.leaveBalance [1, 99] = some (false, c') ∧ c'.groups = [] ∧
      ∀ s, c'.shards s = 1) ∧
    (∃ c', single.joinBalance [(2, ["b"]), (1, ["d"])] = some (false, c') ∧
      c'.groups = [(1, ["a"]), (2, ["b"])]) := by
  exact ⟨⟨_, rfl, by decide, fun _ => rfl⟩, ⟨_, rfl, by decide⟩⟩

end refusals
end DistributedLabs.ShardReconfiguration
