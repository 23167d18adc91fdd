import DistributedLabs.Controllers
import Mathlib.Order.Basic

set_option autoImplicit false

/-!
# The chain of claimed configurations

The configurations that were ever stored under `pendingConfigKey`, with the first one of
all, form a chain with decreasing numbers. Everything the store and the controllers hold
is on it, except for a configuration that is not claimed yet.
-/
namespace DistributedLabs.ControllerChain

open Controllers KvServer Runs ShardCfg

section Chain

def Descending (chain : List ShardConfig) : Prop := chain.Pairwise (fun a b => b.num < a.num)

theorem Descending.eq_of_num {chain : List ShardConfig} (h : Descending chain)
    {a b : ShardConfig} (ha : a ∈ chain) (hb : b ∈ chain) (hnum : a.num = b.num) : a = b := by
  induction chain with
  | nil => cases ha
  | cons x chain ih =>
    obtain ⟨hx, hrest⟩ := List.pairwise_cons.mp h
    cases List.mem_cons.mp ha with
    | inl hax =>
      cases List.mem_cons.mp hb with
      | inl hbx => rw [hax, hbx]
      | inr hb =>
        have hlt := hx b hb
        rw [hax] at hnum
        omega
    | inr ha =>
      cases List.mem_cons.mp hb with
      | inl hbx =>
        have hlt := hx a ha
        rw [hbx] at hnum
        omega
      | inr hb => exact ih hrest ha hb

theorem Descending.le_head {chain : List ShardConfig} (h : Descending chain)
    {a top : ShardConfig} (htop : chain.head? = some top) (ha : a ∈ chain) : a.num ≤ top.num := by
  cases chain with
  | nil => cases ha
  | cons x chain =>
    cases htop
    rcases List.mem_cons.mp ha with rfl | ha
    · exact le_refl _
    · exact le_of_lt ((List.pairwise_cons.mp h).1 a ha)

end Chain

def extend (chain : List ShardConfig) (kv kv' : Store) : List ShardConfig :=
  if configAt kv' .pendingConfigKey = configAt kv .pendingConfigKey then chain
  else (configAt kv' .pendingConfigKey).toList ++ chain

variable {I : Type}

def claimed (first : ShardConfig) : List (Transition (World I) (Label I)) → List ShardConfig
  | [] => [first]
  | t :: tr => extend (claimed first tr) t.pre.kv t.post.kv

/-- On the chain and not newer than the published configuration. -/
def Below (chain : List ShardConfig) (kv : Store) (k : ShardConfig) : Prop :=
  k ∈ chain ∧ ∀ e, kv .configKey = some e → k.num ≤ e.value.num

structure Stored (chain : List ShardConfig) (kv : Store) : Prop where
  ordered : Descending chain
  published : ∃ e, kv .configKey = some e ∧ e.value ∈ chain
  unclaimed : kv .pendingConfigKey = none → ∃ c, chain = [c]
  pending : ∀ e, kv .pendingConfigKey = some e → chain.head? = some e.value

/-- What a controller's local copies satisfy. -/
def Local (chain : List ShardConfig) (kv : Store) : Pc → Prop
  | .idle | .initCurrent => True
  | .initPending current => ∀ k ∈ current, Below chain kv k
  | .query new => ∃ base, Below chain kv base ∧ new.num = base.num + 1
  | .claimGet current cfg => Below chain kv current ∧ cfg.num = current.num + 1
  | .claimPut current cfg ver =>
    (Below chain kv current ∧ cfg.num = current.num + 1) ∧
      Fenced (fun p => p.num ≤ current.num) ver (kv .pendingConfigKey)
  | .completeChange old new => old ∈ chain ∧ new ∈ chain
  | .postGet cfg => cfg ∈ chain
  | .postPut cfg ver => cfg ∈ chain ∧ Fenced (fun c => c.num < cfg.num) ver (kv .configKey)

structure Inv (chain : List ShardConfig) (w : World I) : Prop where
  stored : Stored chain w.kv
  known : ∀ c, ∀ k ∈ w.known c, Below chain w.kv k
  controllers : ∀ c, Local chain w.kv (w.pc c)

theorem Inv.local_at {chain : List ShardConfig} {w : World I} (h : Inv chain w) {c : I} {pc : Pc}
    (hpc : w.pc c = pc) : Local chain w.kv pc := by
  rw [← hpc]
  exact h.controllers c

section Stores

variable {chain chain' : List ShardConfig} {kv kv' : Store}

theorem Stored.mem (h : Stored chain kv) {key : Key} {k : ShardConfig}
    (hk : configAt kv key = some k) : k ∈ chain := by
  obtain ⟨e, he, rfl⟩ := Option.map_eq_some_iff.mp hk
  cases key with
  | configKey =>
    obtain ⟨e', he', hmem⟩ := h.published
    rw [he] at he'
    cases he'
    exact hmem
  | pendingConfigKey => exact List.mem_of_mem_head? (h.pending e he)

theorem Stored.below_config (h : Stored chain kv) {k : ShardConfig}
    (hk : configAt kv .configKey = some k) : Below chain kv k := by
  refine ⟨h.mem hk, fun e he => ?_⟩
  obtain ⟨e', he', rfl⟩ := Option.map_eq_some_iff.mp hk
  rw [he] at he'
  cases he'
  exact le_refl _

/-- How a step may change the store: versions grow, and so does the published number. -/
structure Advances (kv kv' : Store) : Prop where
  later : ∀ key, Later (kv key) (kv' key)
  config : ∀ e', kv' .configKey = some e' →
    ∃ e, kv .configKey = some e ∧ e.value.num ≤ e'.value.num

theorem Below.advance {k : ShardConfig} (h : Below chain kv k) (hsub : chain ⊆ chain')
    (ha : Advances kv kv') : Below chain' kv' k := by
  refine ⟨hsub h.1, fun e' he' => ?_⟩
  obtain ⟨e, he, hle⟩ := ha.config e' he'
  exact le_trans (h.2 e he) hle

/-- The steps of others keep what a controller relies on. -/
theorem Local.advance {pc : Pc} (h : Local chain kv pc) (hsub : chain ⊆ chain')
    (ha : Advances kv kv') : Local chain' kv' pc := by
  cases pc with
  | idle => trivial
  | initCurrent => trivial
  | initPending current => exact fun k hk => (h k hk).advance hsub ha
  | query new =>
    obtain ⟨base, hb, hnum⟩ := h
    exact ⟨base, hb.advance hsub ha, hnum⟩
  | claimGet current cfg => exact ⟨h.1.advance hsub ha, h.2⟩
  | claimPut current cfg ver =>
    exact ⟨⟨h.1.1.advance hsub ha, h.1.2⟩, h.2.later (ha.later _)⟩
  | completeChange old new => exact ⟨hsub h.1, hsub h.2⟩
  | postGet cfg => exact hsub h
  | postPut cfg ver => exact ⟨hsub h.1, h.2.later (ha.later _)⟩

/-- A claim goes through only while its base is published and nothing else is pending. -/
theorem Stored.claim_current (h : Stored chain kv) {old new : ShardConfig} {ver : ℕ}
    (hl : Local chain kv (.claimPut old new ver)) (hm : Matches ver (kv .pendingConfigKey)) :
    configAt kv .configKey = some old ∧ (∀ x ∈ chain, x.num ≤ old.num) ∧
      (configAt kv .pendingConfigKey = none ∨ configAt kv .pendingConfigKey = some old) := by
  obtain ⟨⟨⟨hmem, hbelow⟩, -⟩, hfence⟩ := hl
  obtain ⟨e, he, hcfg⟩ := h.published
  have hle := hbelow e he
  cases hp : kv .pendingConfigKey with
  | none =>
    obtain ⟨c, rfl⟩ := h.unclaimed hp
    have hc : e.value = c := List.mem_singleton.mp hcfg
    have ho : old = c := List.mem_singleton.mp hmem
    refine ⟨?_, fun x hx => ?_, .inl ?_⟩
    · rw [configAt, he, Option.map_some, hc, ho]
    · rw [List.mem_singleton.mp hx, ho]
    · rw [configAt, hp, Option.map_none]
  | some p =>
    rw [hp] at hfence hm
    have htop := h.pending p hp
    have hnum : p.value.num ≤ old.num := hfence.2 hm
    have hcle := h.ordered.le_head htop hcfg
    have hpmem : p.value ∈ chain := List.mem_of_mem_head? htop
    have hpo : p.value = old := h.ordered.eq_of_num hpmem hmem (by omega)
    have hco : e.value = old := h.ordered.eq_of_num hcfg hmem (by omega)
    refine ⟨?_, fun x hx => ?_, .inr ?_⟩
    · rw [configAt, he, Option.map_some, hco]
    · exact le_trans (h.ordered.le_head htop hx) hnum
    · rw [configAt, hp, Option.map_some, hpo]

def claimStore (kv : Store) (cfg : ShardConfig) (ver : ℕ) : Store :=
  Function.update kv .pendingConfigKey (some ⟨cfg, ver + 1⟩)

def postStore (kv : Store) (cfg : ShardConfig) (ver : ℕ) : Store :=
  Function.update kv .configKey (some ⟨cfg, ver + 1⟩)

theorem claimStore_pending (cfg : ShardConfig) (ver : ℕ) :
    claimStore kv cfg ver .pendingConfigKey = some ⟨cfg, ver + 1⟩ := rfl

theorem postStore_config (cfg : ShardConfig) (ver : ℕ) :
    postStore kv cfg ver .configKey = some ⟨cfg, ver + 1⟩ := rfl

theorem claim_advances (cfg : ShardConfig) {ver : ℕ} (hm : Matches ver (kv .pendingConfigKey)) :
    Advances kv (claimStore kv cfg ver) where
  later key := by
    cases key with
    | configKey => exact .same _
    | pendingConfigKey => exact hm.later cfg
  config e he := ⟨e, he, le_refl _⟩

theorem Stored.post_newer (h : Stored chain kv) {cfg : ShardConfig} {ver : ℕ}
    (hl : Local chain kv (.postPut cfg ver)) (hm : Matches ver (kv .configKey)) :
    ∃ e, kv .configKey = some e ∧ e.value.num < cfg.num := by
  obtain ⟨e, he, -⟩ := h.published
  have hfence := hl.2
  rw [he] at hfence hm
  exact ⟨e, he, hfence.2 hm⟩

theorem Stored.post_advances (h : Stored chain kv) {cfg : ShardConfig} {ver : ℕ}
    (hl : Local chain kv (.postPut cfg ver)) (hm : Matches ver (kv .configKey)) :
    Advances kv (postStore kv cfg ver) where
  later key := by
    cases key with
    | configKey => exact hm.later cfg
    | pendingConfigKey => exact .same _
  config e' he' := by
    obtain ⟨e, he, hlt⟩ := h.post_newer hl hm
    rw [postStore_config] at he'
    cases he'
    exact ⟨e, he, le_of_lt hlt⟩

theorem Stored.claim (h : Stored chain kv) {old new : ShardConfig} {ver : ℕ}
    (hl : Local chain kv (.claimPut old new ver)) (hm : Matches ver (kv .pendingConfigKey)) :
    Stored (new :: chain) (claimStore kv new ver) where
  ordered := by
    have hle := (h.claim_current hl hm).2.1
    have hnum := hl.1.2
    refine List.pairwise_cons.mpr ⟨fun x hx => ?_, h.ordered⟩
    have := hle x hx
    omega
  published := by
    obtain ⟨e, he, hmem⟩ := h.published
    exact ⟨e, he, List.mem_cons_of_mem _ hmem⟩
  unclaimed hp := by
    rw [claimStore_pending] at hp
    cases hp
  pending e he := by
    rw [claimStore_pending] at he
    cases he
    rfl

theorem Stored.post (h : Stored chain kv) {cfg : ShardConfig} {ver : ℕ} (hcfg : cfg ∈ chain) :
    Stored chain (postStore kv cfg ver) where
  ordered := h.ordered
  published := ⟨⟨cfg, ver + 1⟩, rfl, hcfg⟩
  unclaimed := h.unclaimed
  pending := h.pending

theorem Stored.extend_claim (h : Stored chain kv) {old new : ShardConfig} {ver : ℕ}
    (hl : Local chain kv (.claimPut old new ver)) (hm : Matches ver (kv .pendingConfigKey)) :
    extend chain kv (claimStore kv new ver) = new :: chain := by
  obtain ⟨-, hle, -⟩ := h.claim_current hl hm
  have hnew : configAt (claimStore kv new ver) .pendingConfigKey = some new := rfl
  have hne : configAt kv .pendingConfigKey ≠ some new := by
    intro heq
    have := hle new (h.mem heq)
    have := hl.1.2
    omega
  rw [extend, hnew, if_neg (Ne.symm hne)]
  rfl

theorem extend_post (cfg : ShardConfig) (ver : ℕ) :
    extend chain kv (postStore kv cfg ver) = chain := by
  have heq : configAt (postStore kv cfg ver) .pendingConfigKey = configAt kv .pendingConfigKey := rfl
  rw [extend, if_pos heq]

theorem extend_same : extend chain kv kv = chain := by
  rw [extend, if_pos rfl]

end Stores

theorem clerkPut_spec (kv : Store) (key : Key) (cfg : ShardConfig) (ver : ℕ) (fate : Fate) :
    (clerkPut kv key cfg ver fate).1 = kv ∧ (clerkPut kv key cfg ver fate).2 ≠ .ok ∨
      Matches ver (kv key) ∧
        (clerkPut kv key cfg ver fate).1 = Function.update kv key (some ⟨cfg, ver + 1⟩) := by
  have hmaybe : Err.errMaybe ≠ .ok := by decide
  cases fate with
  | answered =>
    unfold clerkPut
    rcases put_spec kv key cfg ver with ⟨err, herr, h⟩ | ⟨hm, h⟩
    · rw [h]
      exact .inl ⟨rfl, herr⟩
    · rw [h]
      exact .inr ⟨hm, rfl⟩
  | executed =>
    unfold clerkPut
    rcases put_spec kv key cfg ver with ⟨err, herr, h⟩ | ⟨hm, h⟩
    · rw [h]
      exact .inl ⟨rfl, hmaybe⟩
    · rw [h]
      exact .inr ⟨hm, rfl⟩
  | dropped => exact .inl ⟨rfl, hmaybe⟩

section Reads

variable {chain : List ShardConfig} {kv : Store}

theorem initController_local (h : Stored chain kv) {current : Option ShardConfig}
    (hl : Local chain kv (.initPending current)) :
    Local chain kv (initController current (configAt kv .pendingConfigKey)) := by
  unfold initController
  split
  · rename_i p c hp
    split
    · trivial
    · exact ⟨(hl c rfl).1, h.mem hp⟩
  · trivial

theorem changeConfigTo_local (h : Stored chain kv) {new : ShardConfig}
    (hl : Local chain kv (.query new)) :
    Local chain kv (changeConfigTo (configAt kv .configKey) new) := by
  cases hold : configAt kv .configKey with
  | none => trivial
  | some old =>
    unfold changeConfigTo
    obtain ⟨base, hbase, hnum⟩ := hl
    obtain ⟨e, he, rfl⟩ := Option.map_eq_some_iff.mp hold
    have hle := hbase.2 e he
    change Local chain kv (if new.num ≤ e.value.num then _ else _)
    split
    · trivial
    · exact ⟨h.below_config hold, by omega⟩

theorem claimPendingConfig_local (h : Stored chain kv) {current cfg : ShardConfig}
    (hl : Local chain kv (.claimGet current cfg)) :
    Local chain kv (claimPendingConfig current cfg (get kv .pendingConfigKey).1) := by
  unfold claimPendingConfig KvServer.get
  cases hp : kv .pendingConfigKey with
  | none =>
    refine ⟨hl, ?_⟩
    rw [hp]
    rfl
  | some e =>
    have hmem : e.value ∈ chain := List.mem_of_mem_head? (h.pending e hp)
    change Local chain kv (if e.value.num = cfg.num ∧ e.value = cfg then _ else _)
    split
    · rename_i heq
      rw [heq.2] at hmem
      exact ⟨hl.1.1, hmem⟩
    · split
      · trivial
      · refine ⟨hl, ?_⟩
        rw [hp]
        exact ⟨le_refl _, fun _ => by omega⟩

theorem postConfig_local {cfg : ShardConfig} (hl : Local chain kv (.postGet cfg)) :
    Local chain kv (postConfig cfg (get kv .configKey).1) := by
  unfold postConfig KvServer.get
  cases hc : kv .configKey with
  | none =>
    refine ⟨hl, ?_⟩
    rw [hc]
    rfl
  | some e =>
    change Local chain kv (if cfg.num ≤ e.value.num then _ else _)
    split
    · trivial
    · refine ⟨hl, ?_⟩
      rw [hc]
      exact ⟨le_refl _, fun _ => by omega⟩

theorem onGet_local (h : Stored chain kv) {pc pc' : Pc} (hl : Local chain kv pc)
    (hg : onGet kv pc = some pc') : Local chain kv pc' := by
  cases pc with
  | initCurrent =>
    cases hg
    exact fun k hk => h.below_config hk
  | initPending current =>
    cases hg
    exact initController_local h hl
  | query new =>
    cases hg
    exact changeConfigTo_local h hl
  | claimGet current cfg =>
    cases hg
    exact claimPendingConfig_local h hl
  | postGet cfg =>
    cases hg
    exact postConfig_local hl
  | _ => cases hg

end Reads

section Steps

variable [DecidableEq I] {chain : List ShardConfig} {w v : World I}

theorem Inv.goto (h : Inv chain w) {c : I} {pc : Pc} (hl : Local chain w.kv pc) :
    Inv chain (w.goto c pc) where
  stored := h.stored
  known := h.known
  controllers d := by
    change Local chain w.kv (Function.update w.pc c pc d)
    rw [Function.update_apply]
    split
    · exact hl
    · exact h.controllers d

theorem Inv.write (h : Inv chain w) {c : I} {pc : Pc} {chain' : List ShardConfig} {kv' : Store}
    (hs : Stored chain' kv') (hsub : chain ⊆ chain') (ha : Advances w.kv kv')
    (hl : Local chain' kv' pc) : Inv chain' { w.goto c pc with kv := kv' } where
  stored := hs
  known d k hk := (h.known d k hk).advance hsub ha
  controllers d := by
    change Local chain' kv' (Function.update w.pc c pc d)
    rw [Function.update_apply]
    split
    · exact hl
    · exact (h.controllers d).advance hsub ha

theorem Inv.learn (h : Inv chain w) (c : I) : Inv chain (w.learn c) where
  stored := h.stored
  controllers := h.controllers
  known d k hk := by
    change k ∈ Function.update w.known c _ d at hk
    rw [Function.update_apply] at hk
    split at hk
    · rcases List.mem_append.mp hk with hk | hk
      · exact h.stored.below_config (Option.mem_toList.mp hk)
      · exact h.known c k hk
    · exact h.known d k hk

/-- What a step does to the store. -/
inductive Writes (w : World I) : Store → Prop where
  | none : Writes w w.kv
  | claim {c : I} {old new : ShardConfig} {ver : ℕ} (pc : w.pc c = .claimPut old new ver)
      (current : Matches ver (w.kv .pendingConfigKey)) : Writes w (claimStore w.kv new ver)
  | post {c : I} {cfg : ShardConfig} {ver : ℕ} (pc : w.pc c = .postPut cfg ver)
      (current : Matches ver (w.kv .configKey)) : Writes w (postStore w.kv cfg ver)

theorem put_step (h : Inv chain w) {c : I} {fate : Fate} {r : Store × Pc}
    (hp : onPut w.kv fate (w.pc c) = some r) :
    Writes w r.1 ∧ Inv (extend chain w.kv r.1) { w.goto c r.2 with kv := r.1 } := by
  have hl := h.controllers c
  cases hpc : w.pc c with
  | claimPut current cfg ver =>
    rw [hpc] at hp hl
    cases hp
    rcases clerkPut_spec w.kv .pendingConfigKey cfg ver fate with ⟨hkv, herr⟩ | ⟨hm, hkv⟩
    · simp only [hkv, if_neg herr, extend_same]
      have hretry : Local chain w.kv (.claimGet current cfg) := hl.1
      exact ⟨.none, h.goto (c := c) hretry⟩
    · simp only [hkv]
      change Writes w (claimStore w.kv cfg ver) ∧ Inv (extend chain w.kv (claimStore w.kv cfg ver)) _
      rw [h.stored.extend_claim hl hm]
      have hsub : chain ⊆ cfg :: chain := List.subset_cons_self _ _
      have ha := claim_advances cfg hm
      refine ⟨.claim hpc hm, h.write (h.stored.claim hl hm) hsub ha ?_⟩
      split
      · exact ⟨List.mem_cons_of_mem _ hl.1.1.1, List.mem_cons_self⟩
      · exact ⟨hl.1.1.advance hsub ha, hl.1.2⟩
  | postPut cfg ver =>
    rw [hpc] at hp hl
    cases hp
    rcases clerkPut_spec w.kv .configKey cfg ver fate with ⟨hkv, herr⟩ | ⟨hm, hkv⟩
    · simp only [hkv, if_neg herr, extend_same]
      have hretry : Local chain w.kv (.postGet cfg) := hl.1
      exact ⟨.none, h.goto (c := c) hretry⟩
    · simp only [hkv]
      change Writes w (postStore w.kv cfg ver) ∧ Inv (extend chain w.kv (postStore w.kv cfg ver)) _
      rw [extend_post]
      refine ⟨.post hpc hm, h.write (h.stored.post hl.1) (List.Subset.refl _)
        (h.stored.post_advances hl hm) ?_⟩
      split
      · trivial
      · exact hl.1
  | _ =>
    rw [hpc] at hp
    cases hp

/-- Each step writes only as described and keeps the invariant. -/
theorem exec_step (h : Inv chain w) {l : Label I} (hs : exec w l = some v) :
    Writes w v.kv ∧ Inv (extend chain w.kv v.kv) v := by
  have still {u : World I} (hkv : u.kv = w.kv) (hu : Inv chain u) :
      Writes w u.kv ∧ Inv (extend chain w.kv u.kv) u := by
    rw [hkv, extend_same]
    exact ⟨.none, hu⟩
  cases l with
  | query c =>
    cases hs
    exact still rfl (h.learn c)
  | initController c =>
    obtain ⟨-, hs⟩ := Option.ite_none_right_eq_some.mp hs
    cases hs
    exact still rfl (h.goto trivial)
  | changeConfigTo c base r =>
    obtain ⟨⟨-, hbase⟩, hs⟩ := Option.ite_none_right_eq_some.mp hs
    obtain ⟨new, hnew, rfl⟩ := Option.map_eq_some_iff.mp hs
    exact still rfl (h.goto ⟨base, h.known c base hbase, Reconfiguration.apply_num hnew⟩)
  | get c =>
    obtain ⟨pc, hpc, rfl⟩ := Option.map_eq_some_iff.mp hs
    exact still rfl (h.goto (onGet_local h.stored (h.controllers c) hpc))
  | put c fate =>
    obtain ⟨r, hr, rfl⟩ := Option.map_eq_some_iff.mp hs
    exact put_step h hr
  | moved c all =>
    unfold exec at hs
    simp only at hs
    split at hs
    · rename_i old new hpc
      cases hs
      have hl := h.local_at hpc
      refine still rfl (h.goto ?_)
      split
      · exact hl.2
      · trivial
    · cases hs
  | stop c =>
    cases hs
    exact still rfl (h.goto trivial)

omit [DecidableEq I] in
theorem inv_initially (first : ShardConfig) (version : ℕ) :
    Inv [first] (initially first version : World I) where
  stored :=
    { ordered := List.pairwise_singleton _ _
      published := ⟨⟨first, version⟩, rfl, List.mem_singleton.mpr rfl⟩
      unclaimed := fun _ => ⟨first, rfl⟩
      pending := fun _ he => by cases he }
  known _ _ hk := by cases hk
  controllers _ := trivial

theorem claimed_inv {first : ShardConfig} {tr : List (Transition (World I) (Label I))}
    (run : Run (controllers I first) tr w) : Inv (claimed first tr) w := by
  refine Run.history (I := fun tr w => Inv (claimed first tr) w) ?_ ?_ run
  · rintro s ⟨version, -, rfl⟩
    exact inv_initially first version
  · intro tr s l u _ hinv hstep
    exact (exec_step hinv hstep).2

end Steps

end DistributedLabs.ControllerChain
