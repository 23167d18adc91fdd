import DistributedLabs.ControllerChain

set_option autoImplicit false

/-!
# What the controllers guarantee

The stored configurations form one chain. A change that `ChangeConfigTo` starts is
between neighbours on it; one that `InitController` resumes is only if what it read is
not out of date by more than one change.
-/
namespace DistributedLabs.ControllerSafety

open ControllerChain Controllers KvServer Runs ShardCfg

variable {I : Type} [DecidableEq I] {first : ShardConfig}
  {tr : List (Transition (World I) (Label I))} {s : World I}

abbrev config (w : World I) : Option ShardConfig := configAt w.kv .configKey

abbrev pending (w : World I) : Option ShardConfig := configAt w.kv .pendingConfigKey

structure SingleChain (tr : List (Transition (World I) (Label I))) (s : World I) : Prop where
  published : ∀ t ∈ tr, ∃ a b, config t.pre = some a ∧ config t.post = some b ∧ a.num ≤ b.num
  increasing : ∀ t ∈ tr, ∀ a, pending t.pre = some a →
    ∃ b, pending t.post = some b ∧ (a ≠ b → a.num < b.num)
  unique : ∀ x y, Visits tr s x → Visits tr s y → ∀ key key' a b,
    configAt x.kv key = some a → configAt y.kv key' = some b → a.num = b.num → a = b
  settled : ∀ t ∈ tr, pending t.post ≠ pending t.pre →
    ∀ a, pending t.pre = some a → config t.pre = some a

omit [DecidableEq I] in
theorem claimed_mono (rest past : List (Transition (World I) (Label I))) :
    claimed first past ⊆ claimed first (rest ++ past) := by
  induction rest with
  | nil => exact List.Subset.refl _
  | cons t rest ih =>
    change _ ⊆ extend _ _ _
    unfold extend
    split
    · exact ih
    · exact List.Subset.trans ih (List.subset_append_right _ _)

theorem mem_claimed_of_visits (run : Run (controllers I first) tr s) {x : World I}
    (hx : Visits tr s x) {key : Key} {a : ShardConfig} (ha : configAt x.kv key = some a) :
    a ∈ claimed first tr := by
  obtain ⟨past, rest, rfl, hpast⟩ := run.past hx
  exact claimed_mono rest past ((claimed_inv hpast).stored.mem ha)

theorem transition_writes (run : Run (controllers I first) tr s)
    {t : Transition (World I) (Label I)} (ht : t ∈ tr) :
    ∃ chain, Inv chain t.pre ∧ Writes t.pre t.post.kv := by
  obtain ⟨⟨past, hpast⟩, hstep, -⟩ := run.visited ht
  have hinv := claimed_inv hpast
  exact ⟨_, hinv, (exec_step hinv hstep).1⟩

theorem single_chain (run : Run (controllers I first) tr s) : SingleChain tr s where
  published t ht := by
    obtain ⟨chain, hinv, hw⟩ := transition_writes run ht
    obtain ⟨e, he, -⟩ := hinv.stored.published
    have hpre : config t.pre = some e.value := by rw [config, configAt, he, Option.map_some]
    generalize t.post = v at hw ⊢
    obtain ⟨kv, pc, known⟩ := v
    cases hw with
    | none => exact ⟨_, _, hpre, hpre, le_refl _⟩
    | claim hpc hm => exact ⟨_, _, hpre, hpre, le_refl _⟩
    | @post c cfg ver hpc hm =>
      have hl := hinv.local_at hpc
      obtain ⟨e', he', hlt⟩ := hinv.stored.post_newer hl hm
      rw [he] at he'
      cases he'
      exact ⟨_, cfg, hpre, rfl, le_of_lt hlt⟩
  increasing t ht a ha := by
    obtain ⟨chain, hinv, hw⟩ := transition_writes run ht
    generalize t.post = v at hw ⊢
    obtain ⟨kv, pc, known⟩ := v
    cases hw with
    | none => exact ⟨a, ha, fun hne => absurd rfl hne⟩
    | post hpc hm => exact ⟨a, ha, fun hne => absurd rfl hne⟩
    | @claim c old new ver hpc hm =>
      have hl := hinv.local_at hpc
      have hle := (hinv.stored.claim_current hl hm).2.1 a (hinv.stored.mem ha)
      have hnum := hl.1.2
      exact ⟨new, rfl, fun _ => by omega⟩
  unique x y hx hy key key' a b ha hb hnum :=
    (claimed_inv run).stored.ordered.eq_of_num (mem_claimed_of_visits run hx ha)
      (mem_claimed_of_visits run hy hb) hnum
  settled t ht hne a ha := by
    obtain ⟨chain, hinv, hw⟩ := transition_writes run ht
    generalize t.post = v at hw hne
    obtain ⟨kv, pc, known⟩ := v
    cases hw with
    | none => exact absurd rfl hne
    | post hpc hm => exact absurd rfl hne
    | @claim c old new ver hpc hm =>
      have hl := hinv.local_at hpc
      obtain ⟨hcfg, -, hnone | hsome⟩ := hinv.stored.claim_current hl hm
      · rw [pending, hnone] at ha
        cases ha
      · rw [pending, hsome] at ha
        cases ha
        exact hcfg

section Sample

def lone : ShardConfig := ⟨1, fun _ => gid1, [(gid1, ["a"])]⟩

def paired : ShardConfig :=
  ⟨2, fun s => if s.val < 6 then 2 else gid1, [(gid1, ["a"]), (2, ["b"])]⟩

def moved : ShardConfig := ⟨3, fun _ => 2, [(2, ["b"])]⟩

def claiming (c : Bool) (base : ShardConfig) (r : Reconfiguration) : List (Label Bool) :=
  [.query c, .changeConfigTo c base r, .get c, .get c, .put c .executed, .get c]

def publishing (c : Bool) : List (Label Bool) :=
  [.moved c true, .get c, .put c .answered]

/-- Two changes by one controller; another resumes the second. -/
def twoChanges : List (Label Bool) :=
  claiming true lone (.join [(2, ["b"])]) ++ publishing true ++
    claiming true paired (.leave [gid1]) ++ [.stop true, .initController false, .get false, .get false]

/-- `twoChanges`, but the other controller does its first read before the first change. -/
def staleResume : List (Label Bool) :=
  [.initController false, .get false] ++ claiming true lone (.join [(2, ["b"])]) ++
    publishing true ++ claiming true paired (.leave [gid1]) ++ [.get false]

end Sample

theorem single_chain_twoChanges : ∃ tr s, Run (controllers Bool lone) tr s ∧
    config s = some paired ∧ pending s = some moved ∧ SingleChain tr s := by
  have hsome : (replay exec (initially lone 1) [] twoChanges).map
      (fun r => decide (config r.2 = some paired ∧ pending r.2 = some moved)) = some true := by
    decide +kernel
  obtain ⟨⟨tr, s⟩, hr, hd⟩ := Option.map_eq_some_iff.mp hsome
  obtain ⟨hc, hp⟩ := of_decide_eq_true hd
  have hrun : Run (controllers Bool lone) tr s :=
    Run.replay (fun _ _ _ h => h) _ (.start ⟨1, le_refl _, rfl⟩) hr
  exact ⟨tr, s, hrun, hc, hp, single_chain hrun⟩

def Claims (new : ShardConfig) (t : Transition (World I) (Label I)) : Prop :=
  pending t.post = some new ∧ pending t.pre ≠ some new

instance (new : ShardConfig) (t : Transition (World I) (Label I)) : Decidable (Claims new t) :=
  inferInstanceAs (Decidable (_ ∧ _))

/-- `new` was claimed, and `old` was published whenever it was. -/
def Adjacent (tr : List (Transition (World I) (Label I))) (old new : ShardConfig) : Prop :=
  (∃ t ∈ tr, Claims new t) ∧ ∀ t ∈ tr, Claims new t → config t.pre = some old

def AdjacentChanges (tr : List (Transition (World I) (Label I))) : Prop :=
  ∀ t ∈ tr, ∀ c old new, t.post.pc c = .completeChange old new → Adjacent tr old new

/-- If the step is the second read of `InitController`, the pending configuration is at
    most one change ahead of the one the first read returned. -/
def InTime (t : Transition (World I) (Label I)) : Prop :=
  ∀ c current p, t.label = .get c → t.pre.pc c = .initPending (some current) →
    pending t.pre = some p → p.num ≤ current.num + 1

theorem Claims.published (run : Run (controllers I first) tr s)
    {t : Transition (World I) (Label I)} (ht : t ∈ tr) {new : ShardConfig} (h : Claims new t) :
    ∃ old, config t.pre = some old ∧ new.num = old.num + 1 := by
  obtain ⟨chain, hinv, hw⟩ := transition_writes run ht
  obtain ⟨hpost, hpre⟩ := h
  generalize t.post = v at hw hpost
  obtain ⟨kv, pc, known⟩ := v
  cases hw with
  | none => exact absurd hpost hpre
  | post hpc hm => exact absurd hpost hpre
  | @claim c old new' ver hpc hm =>
    have hl := hinv.local_at hpc
    cases hpost
    exact ⟨old, (hinv.stored.claim_current hl hm).1, hl.1.2⟩

omit [DecidableEq I] in
theorem claims_of_mem_claimed {x : ShardConfig} (hx : x ∈ claimed first tr) :
    x = first ∨ ∃ t ∈ tr, Claims x t := by
  induction tr with
  | nil => exact .inl (List.mem_singleton.mp hx)
  | cons t tr ih =>
    change x ∈ extend _ _ _ at hx
    unfold extend at hx
    have later (h : x = first ∨ ∃ t ∈ tr, Claims x t) : x = first ∨ ∃ u ∈ t :: tr, Claims x u := by
      rcases h with h | ⟨u, hu, hc⟩
      · exact .inl h
      · exact .inr ⟨u, List.mem_cons_of_mem _ hu, hc⟩
    split at hx
    · exact later (ih hx)
    · rename_i hne
      rcases List.mem_append.mp hx with hx | hx
      · have hpost := Option.mem_toList.mp hx
        refine .inr ⟨t, List.mem_cons_self, hpost, fun hpre => hne ?_⟩
        exact hpost.trans hpre.symm
      · exact later (ih hx)

omit [DecidableEq I] in
theorem claimed_ends_first : ∃ l, claimed first tr = l ++ [first] := by
  induction tr with
  | nil => exact ⟨[], rfl⟩
  | cons t tr ih =>
    obtain ⟨l, hl⟩ := ih
    change ∃ l, extend (claimed first tr) _ _ = _
    rw [hl]
    unfold extend
    split
    · exact ⟨l, rfl⟩
    · exact ⟨_ ++ l, (List.append_assoc _ _ _).symm⟩

theorem first_le_claimed (run : Run (controllers I first) tr s) {x : ShardConfig}
    (hx : x ∈ claimed first tr) : first.num ≤ x.num := by
  have hord := (claimed_inv run).stored.ordered
  obtain ⟨l, hl⟩ : ∃ l, claimed first tr = l ++ [first] := claimed_ends_first
  rw [hl] at hx hord
  rcases List.mem_append.mp hx with hx | hx
  · exact le_of_lt ((List.pairwise_append.mp hord).2.2 x hx first (List.mem_singleton.mpr rfl))
  · rw [List.mem_singleton.mp hx]

theorem adjacent_of_num (run : Run (controllers I first) tr s) {old new : ShardConfig}
    (hold : old ∈ claimed first tr) (hnew : new ∈ claimed first tr)
    (hnum : new.num = old.num + 1) : Adjacent tr old new := by
  refine ⟨?_, fun t ht hc => ?_⟩
  · rcases claims_of_mem_claimed hnew with rfl | h
    · have hle := first_le_claimed run hold
      omega
    · exact h
  · obtain ⟨o, ho, hnum'⟩ := hc.published run ht
    have hmem := mem_claimed_of_visits run (.inr ⟨t, ht, rfl⟩) ho
    rw [ho, (claimed_inv run).stored.ordered.eq_of_num hmem hold (by omega)]

def OneApart : Pc → Prop
  | .completeChange old new => new.num = old.num + 1
  | _ => True

omit [DecidableEq I] in
theorem onGet_oneApart {chain : List ShardConfig} {w v : World I} {c : I} (hinv : Inv chain w)
    (ht : InTime ⟨w, .get c, v⟩) {pc : Pc} (hg : onGet w.kv (w.pc c) = some pc) :
    OneApart pc := by
  have hl := hinv.controllers c
  cases hpc : w.pc c with
  | initCurrent =>
    rw [hpc] at hg
    cases hg
    trivial
  | initPending current =>
    rw [hpc] at hg
    cases hg
    unfold initController
    split
    · rename_i p k hp
      have hle := ht c k p rfl hpc hp
      split
      · trivial
      · change p.num = k.num + 1
        omega
    · trivial
  | query new =>
    rw [hpc] at hg
    cases hg
    unfold changeConfigTo
    split
    · trivial
    · split <;> trivial
  | claimGet current cfg =>
    rw [hpc] at hg hl
    cases hg
    unfold claimPendingConfig
    split
    · trivial
    · split
      · exact hl.2
      · split <;> trivial
  | postGet cfg =>
    rw [hpc] at hg
    cases hg
    unfold postConfig
    split
    · trivial
    · split <;> trivial
  | _ =>
    rw [hpc] at hg
    cases hg

omit [DecidableEq I] in
theorem onPut_oneApart {chain : List ShardConfig} {w : World I} {c : I} (hinv : Inv chain w)
    {fate : Fate} {r : Store × Pc} (hp : onPut w.kv fate (w.pc c) = some r) : OneApart r.2 := by
  have hl := hinv.controllers c
  cases hpc : w.pc c with
  | claimPut current cfg ver =>
    rw [hpc] at hp hl
    cases hp
    change OneApart (if _ then _ else _)
    split
    · exact hl.1.2
    · trivial
  | postPut cfg ver =>
    rw [hpc] at hp
    cases hp
    change OneApart (if _ then _ else _)
    split <;> trivial
  | _ =>
    rw [hpc] at hp
    cases hp

theorem exec_oneApart {chain : List ShardConfig} {w v : World I} {l : Label I} (hinv : Inv chain w)
    (h : ∀ c, OneApart (w.pc c)) (ht : InTime ⟨w, l, v⟩) (hs : exec w l = some v) :
    ∀ c, OneApart (v.pc c) := by
  have goto {c : I} {pc : Pc} (hpc : OneApart pc) (d : I) :
      OneApart (Function.update w.pc c pc d) := by
    rw [Function.update_apply]
    split
    · exact hpc
    · exact h d
  cases l with
  | query c =>
    cases hs
    exact h
  | initController c =>
    obtain ⟨-, hs⟩ := Option.ite_none_right_eq_some.mp hs
    cases hs
    exact goto trivial
  | changeConfigTo c base r =>
    obtain ⟨-, hs⟩ := Option.ite_none_right_eq_some.mp hs
    obtain ⟨new, -, rfl⟩ := Option.map_eq_some_iff.mp hs
    exact goto trivial
  | get c =>
    obtain ⟨pc, hpc, rfl⟩ := Option.map_eq_some_iff.mp hs
    exact goto (onGet_oneApart hinv ht hpc)
  | put c fate =>
    obtain ⟨r, hr, rfl⟩ := Option.map_eq_some_iff.mp hs
    exact goto (onPut_oneApart hinv hr)
  | moved c all =>
    unfold exec at hs
    simp only at hs
    split at hs
    · cases hs
      refine goto ?_
      split <;> trivial
    · cases hs
  | stop c =>
    cases hs
    exact goto trivial

theorem oneApart_of_inTime (run : Run (controllers I first) tr s) :
    (∀ t ∈ tr, InTime t) → ∀ c, OneApart (s.pc c) := by
  refine Run.history (I := fun tr s => (∀ t ∈ tr, InTime t) → ∀ c, OneApart (s.pc c)) ?_ ?_ run
  · rintro s ⟨version, -, rfl⟩ _ c
    trivial
  · intro tr s l u run ih hstep htime
    obtain ⟨hlast, hpast⟩ := List.forall_mem_cons.mp htime
    exact exec_oneApart (claimed_inv run) (ih hpast) hlast hstep

/-- Every change in progress is between neighbours exactly when no `InitController` reads
    a pending configuration further ahead. -/
theorem adjacentChanges_iff (run : Run (controllers I first) tr s) :
    AdjacentChanges tr ↔ ∀ t ∈ tr, InTime t := by
  constructor
  · intro h t ht c current p hlabel hpc hp
    by_contra hfar
    have hstep := (run.visited ht).2.1
    rw [hlabel] at hstep
    obtain ⟨pc, hget, hpost⟩ := Option.map_eq_some_iff.mp hstep
    rw [hpc] at hget
    change some (initController (some current) (pending t.pre)) = some pc at hget
    have hlate : ¬ p.num ≤ current.num := by omega
    rw [hp, initController, if_neg hlate] at hget
    have henters : t.post.pc c = .completeChange current p := by
      rw [← hpost, ← Option.some.inj hget]
      exact Function.update_self _ _ _
    obtain ⟨⟨u, hu, hclaim⟩, hall⟩ := h t ht c current p henters
    obtain ⟨old, hold, hnum⟩ := hclaim.published run hu
    rw [hall u hu hclaim] at hold
    cases hold
    omega
  · intro htime t ht c old new hpc
    obtain ⟨past, rest, rfl, hpast⟩ := run.past (run.visits_post ht)
    have hsub := fun u hu => htime u (List.mem_append_right rest hu)
    have hnum := oneApart_of_inTime hpast hsub c
    have hl := (claimed_inv hpast).controllers c
    rw [hpc] at hnum hl
    exact adjacent_of_num run (claimed_mono rest past hl.1) (claimed_mono rest past hl.2) hnum

def resumesInTime (t : Transition (World Bool) (Label Bool)) : Bool :=
  match t.label, t.pre.pc false, pending t.pre with
  | .get false, .initPending (some current), some p => decide (p.num ≤ current.num + 1)
  | .get true, _, _ => match t.pre.pc true with
    | .initPending _ => false
    | _ => true
  | _, _, _ => true

theorem inTime_of_resumesInTime {t : Transition (World Bool) (Label Bool)}
    (h : resumesInTime t = true) : InTime t := by
  intro c current p hlabel hpc hp
  cases c with
  | false =>
    rw [resumesInTime, hlabel, hpc, hp] at h
    exact of_decide_eq_true h
  | true =>
    rw [resumesInTime, hlabel, hpc] at h
    cases h

theorem adjacentChanges_twoChanges : ∃ tr s, Run (controllers Bool lone) tr s ∧
    s.pc false = .completeChange paired moved ∧ (∀ t ∈ tr, InTime t) ∧ AdjacentChanges tr := by
  have hsome : (replay exec (initially lone 1) [] twoChanges).map
      (fun r => decide (r.2.pc false = .completeChange paired moved ∧
        ∀ t ∈ r.1, resumesInTime t = true)) = some true := by
    decide +kernel
  obtain ⟨⟨tr, s⟩, hr, hd⟩ := Option.map_eq_some_iff.mp hsome
  obtain ⟨hpc, hall⟩ := of_decide_eq_true hd
  have htime := fun t ht => inTime_of_resumesInTime (hall t ht)
  have hrun : Run (controllers Bool lone) tr s :=
    Run.replay (fun _ _ _ h => h) _ (.start ⟨1, le_refl _, rfl⟩) hr
  exact ⟨tr, s, hrun, hpc, htime, (adjacentChanges_iff hrun).mpr htime⟩

/-- A controller that read `lone` before two changes skips one of them when it resumes. -/
theorem resume_skips_change : ∃ tr s, Run (controllers Bool lone) tr s ∧
    s.pc false = .completeChange lone moved ∧ ¬ AdjacentChanges tr := by
  have hsome : (replay exec (initially lone 1) [] staleResume).map
      (fun r => decide (r.2.pc false = .completeChange lone moved ∧
        (∃ t ∈ r.1, t.post.pc false = .completeChange lone moved) ∧
        ∃ t ∈ r.1, Claims moved t ∧ config t.pre ≠ some lone)) = some true := by
    decide +kernel
  obtain ⟨⟨tr, s⟩, hr, hd⟩ := Option.map_eq_some_iff.mp hsome
  obtain ⟨hpc, ⟨t, ht, henters⟩, u, hu, hclaim, hne⟩ := of_decide_eq_true hd
  refine ⟨tr, s, Run.replay (fun _ _ _ h => h) _ (.start ⟨1, le_refl _, rfl⟩) hr, hpc, fun h => ?_⟩
  exact hne ((h t ht false lone moved henters).2 u hu hclaim)

end DistributedLabs.ControllerSafety
