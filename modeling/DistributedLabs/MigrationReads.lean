import DistributedLabs.MigrationSafety

set_option autoImplicit false

/-!
# Reads during migration

A frozen shard still answers reads, while the group it goes to already serves writes. What
a frozen record misses is exactly what was accepted since it was frozen.
-/
namespace DistributedLabs.MigrationReads

open Handoff KvServer Migration MigrationInvariant MigrationSafety Runs ShardCfg ShardServer

section Writes

theorem applyAll_cons {d e : Data} {p : PutArgs} {l : List PutArgs}
    (h : applyAll d (p :: l) = some e) :
    ∃ d', put d p.key p.value p.version = (d', .ok) ∧ applyAll d' l = some e := by
  rw [applyAll] at h
  obtain ⟨hok, h⟩ := Option.ite_none_right_eq_some.mp h
  exact ⟨_, Prod.ext rfl hok, h⟩

theorem applyAll_untouched {d e : Data} {l : List PutArgs} {k : String}
    (h : applyAll d l = some e) (hk : ∀ p ∈ l, p.key ≠ k) : e k = d k := by
  induction l generalizing d with
  | nil =>
    cases h
    rfl
  | cons p l ih =>
    obtain ⟨hp, hrest⟩ := List.forall_mem_cons.mp hk
    obtain ⟨d', hput, h⟩ := applyAll_cons h
    rw [ih h hrest, (put_ok hput).2, Function.update_of_ne (Ne.symm hp)]

theorem applyAll_version {d e : Data} {l : List PutArgs} (k : String) (h : applyAll d l = some e) :
    versionOf (e k) = versionOf (d k) + l.countP (fun p => p.key = k) := by
  induction l generalizing d with
  | nil =>
    cases h
    rfl
  | cons p l ih =>
    obtain ⟨d', hput, h⟩ := applyAll_cons h
    obtain ⟨hm, hupd⟩ := put_ok hput
    rw [ih h, hupd, List.countP_cons]
    by_cases hk : p.key = k
    · subst hk
      rw [Function.update_self, hm.versionOf]
      simp only [versionOf, decide_true, if_true]
      omega
    · rw [Function.update_of_ne (Ne.symm hk)]
      simp only [hk, decide_false, Bool.false_eq_true, if_false, Nat.add_zero]

theorem applyAll_between {s : Tshid} {l : List PutArgs} {a b : ℕ} {d e : Data} (hab : a ≤ b)
    (ha : applyAll noData (ofShard s (l.take a)) = some d)
    (hb : applyAll noData (ofShard s (l.take b)) = some e) :
    applyAll d (ofShard s ((l.take b).drop a)) = some e := by
  have hsplit : (l.take b).take a = l.take a := by rw [List.take_take, Nat.min_eq_left hab]
  rw [← List.take_append_drop a (l.take b), ofShard_append, applyAll_append, hsplit, ha] at hb
  exact hb

theorem applyAll_take {s : Tshid} {l : List PutArgs} {d : Data}
    (h : applyAll noData (ofShard s l) = some d) (n : ℕ) :
    ∃ e, applyAll noData (ofShard s (l.take n)) = some e := by
  rw [← List.take_append_drop n l, ofShard_append, applyAll_append] at h
  obtain ⟨e, he, -⟩ := Option.bind_eq_some_iff.mp h
  exact ⟨e, he⟩

theorem mem_between {l : List PutArgs} {a b : ℕ} {p : PutArgs} :
    p ∈ (l.take b).drop a ↔ ∃ i, a ≤ i ∧ i < b ∧ l[i]? = some p := by
  rw [List.mem_iff_getElem?]
  constructor
  · rintro ⟨i, hi⟩
    rw [List.getElem?_drop, List.getElem?_take] at hi
    obtain ⟨hlt, hi⟩ := Option.ite_none_right_eq_some.mp hi
    exact ⟨a + i, Nat.le_add_right _ _, hlt, hi⟩
  · rintro ⟨i, ha, hb, hi⟩
    refine ⟨i - a, ?_⟩
    rw [List.getElem?_drop, List.getElem?_take, Nat.add_sub_cancel' ha, if_pos hb]
    exact hi

end Writes

/-- The answer to a read of `key` includes the first `before` accepted writes: it is what
    some of the accepted ones from the start give, and at least those. -/
def Reflects (accepted : List PutArgs) (before : ℕ) (key : String)
    (answer : Option (KvEntry String)) : Prop :=
  ∃ n, before ≤ n ∧ n ≤ accepted.length ∧
    ∃ d, applyAll noData (ofShard (key2Shard key) (accepted.take n)) = some d ∧ d key = answer

def answerOf : Reply → Option (Option (KvEntry String))
  | .get value version .ok => some (some ⟨value, version⟩)
  | .get _ _ .errNoKey => some none
  | _ => none

theorem answerOf_doGet {kv : Shards} {key : String} {answer : Option (KvEntry String)}
    (h : answerOf (doGet kv key) = some answer) :
    (kv (key2Shard key)).state ≠ .notOwned ∧ (kv (key2Shard key)).data key = answer := by
  unfold doGet at h
  by_cases hs : (kv (key2Shard key)).state = .notOwned
  · simp only [hs, if_true] at h
    cases h
  · refine ⟨hs, ?_⟩
    simp only [hs, if_false] at h
    cases hd : (kv (key2Shard key)).data key with
    | none =>
      rw [hd] at h
      exact Option.some.inj h
    | some e =>
      rw [hd] at h
      exact Option.some.inj h

variable {I J : Type}

structure Effect (w v : World I J) : Prop where
  nums : ∀ g s, (w.groups g s).num ≤ (v.groups g s).num
  frozen : ∀ g s, (v.groups g s).state = .frozen → v.groups g s = w.groups g s ∨
    v.accepted = w.accepted ∧ (w.groups g s).state = .serving ∧
      (w.groups g s).num < (v.groups g s).num ∧ (v.groups g s).data = (w.groups g s).data
  accepted : v.accepted = w.accepted ∨ ∃ p, v.accepted = w.accepted ++ [p]

theorem Effect.of_same {w v : World I J} (hg : v.groups = w.groups)
    (ha : v.accepted = w.accepted) : Effect w v where
  nums g s := by rw [hg]
  frozen g s _ := .inl (by rw [hg])
  accepted := .inl ha

section Steps

variable {chain : ConfigChain} {w v : World I J}

theorem Effect.of_update (gid : Tgid) (s : Tshid) (x : ShardRec)
    (hg : v.groups = Function.update w.groups gid (Function.update (w.groups gid) s x))
    (ha : v.accepted = w.accepted ∨ ∃ p, v.accepted = w.accepted ++ [p])
    (hnum : (w.groups gid s).num ≤ x.num)
    (hfrozen : x.state = .frozen → x = w.groups gid s ∨ v.accepted = w.accepted ∧
      (w.groups gid s).state = .serving ∧ (w.groups gid s).num < x.num ∧
      x.data = (w.groups gid s).data) : Effect w v := by
  have hself : v.groups gid s = x := by rw [hg, Function.update_self, Function.update_self]
  have hother (g : Tgid) (t : Tshid) (hne : ¬ (g = gid ∧ t = s)) : v.groups g t = w.groups g t := by
    rw [hg]
    by_cases hgid : g = gid
    · subst hgid
      rw [Function.update_self, Function.update_of_ne (fun ht => hne ⟨rfl, ht⟩)]
    · rw [Function.update_of_ne hgid]
  refine ⟨fun g t => ?_, fun g t hf => ?_, ha⟩
  · by_cases heq : g = gid ∧ t = s
    · obtain ⟨rfl, rfl⟩ := heq
      rw [hself]
      exact hnum
    · rw [hother g t heq]
  · by_cases heq : g = gid ∧ t = s
    · obtain ⟨rfl, rfl⟩ := heq
      rw [hself] at hf ⊢
      exact hfrozen hf
    · exact .inl (hother g t heq)

theorem apply_effect (h : Inv chain w) {gid : Tgid} {r : Request}
    (hs : Sendable chain w.published w.groups gid r) : Effect w (w.apply gid r) := by
  have migrate {s : Tshid} {op : Op Data} (hop : r.op = some (s, op)) :
      Effect w (w.apply gid r) := by
    obtain ⟨j, hj, hm, ha⟩ := hs s op hop
    obtain ⟨d, -, hset⟩ := h.shards s
    refine Effect.of_update gid s _ (apply_groups hop) (.inl (apply_accepted hop))
      (Rec.num_le_apply _ _ _) (fun hf => ?_)
    · rcases hset.frozen_after hj hm ha hf with heq | hserving
      · exact .inl heq
      · exact .inr ⟨apply_accepted hop, hserving⟩
  cases hr : r with
  | get key =>
    exact Effect.of_same (Function.update_eq_self _ _) (List.append_nil _)
  | put key value version =>
    rcases apply_put_cases w gid key value version with
      ⟨hgroups, haccepted⟩ | ⟨hstate, haccepted, e, -, hgroups⟩
    · exact Effect.of_same hgroups haccepted
    · refine Effect.of_update gid (key2Shard key) _ hgroups (.inr ⟨_, haccepted⟩) (le_refl _) ?_
      intro hf
      rw [hstate] at hf
      cases hf
  | freeze s num =>
    rw [hr] at migrate
    exact migrate rfl
  | install s state num =>
    rw [hr] at migrate
    exact migrate rfl
  | delete s num =>
    rw [hr] at migrate
    exact migrate rfl

variable [DecidableEq I] [DecidableEq J]

theorem delivered_keeps {gid : Tgid} {r : Request} {reply : Reply} {f : World I J → World I J}
    (hf : Delivered chain w gid r reply f) (x : World I J) :
    (f x).groups = x.groups ∧ (f x).accepted = x.accepted := by
  cases hf <;> exact ⟨rfl, rfl⟩

/-- Only `serve` changes what the groups hold. -/
theorem exec_effect (h : Inv chain w) {routes : ℕ → Tshid → Tgid → Bool} {l : Label I J}
    (hs : exec chain routes w l = some v) : Effect w v := by
  cases exec_stepped hs with
  | serve i dest gid r f hmsg hf =>
    have heff := apply_effect h (h.flight _ hmsg)
    obtain ⟨hgroups, haccepted⟩ := delivered_keeps hf (w.apply gid r)
    refine ⟨?_, ?_, ?_⟩
    · rw [hgroups]
      exact heff.nums
    · rw [hgroups, haccepted]
      exact heff.frozen
    · rw [haccepted]
      exact heff.accepted
  | _ => exact Effect.of_same rfl rfl

end Steps

section History

variable {chain : ConfigChain} {w v : World I J} {tr : List (Transition (World I J) (Label I J))}

theorem Effect.grows (h : Effect w v) : w.accepted <+: v.accepted := by
  rcases h.accepted with ha | ⟨p, ha⟩
  · rw [ha]
  · exact ⟨[p], ha.symm⟩

theorem Effect.length_le (h : Effect w v) : w.accepted.length ≤ v.accepted.length :=
  h.grows.length_le

def Accepts (u : Transition (World I J) (Label I J)) (p : PutArgs) : Prop :=
  u.post.accepted = u.pre.accepted ++ [p]

/-- `g`'s record of `s` was frozen when `f` writes had been accepted, and has been the same
    exactly since then. -/
structure FrozenSince (tr : List (Transition (World I J) (Label I J))) (w : World I J)
    (g : Tgid) (s : Tshid) (f : ℕ) : Prop where
  bound : f ≤ w.accepted.length
  data : applyAll noData (ofShard s (w.accepted.take f)) = some (w.groups g s).data
  since : ∀ u ∈ tr, ∀ p, Accepts u p →
    (f ≤ u.pre.accepted.length ↔ u.pre.groups g s = w.groups g s)

structure Traced (tr : List (Transition (World I J) (Label I J))) (w : World I J) : Prop where
  logged : ∀ i p, w.accepted[i]? = some p → ∃ u ∈ tr, u.pre.accepted.length = i ∧ Accepts u p
  earlier : ∀ u ∈ tr, u.post.accepted <+: w.accepted
  nums : ∀ u ∈ tr, ∀ g s, (u.pre.groups g s).num ≤ (w.groups g s).num
  frozen : ∀ g s, (w.groups g s).state = .frozen → ∃ f, FrozenSince tr w g s f

theorem Accepts.length {u : Transition (World I J) (Label I J)} {p : PutArgs} (h : Accepts u p) :
    u.post.accepted.length = u.pre.accepted.length + 1 := by
  rw [h, List.length_append]
  rfl

theorem Traced.getElem_of_accepts (h : Traced tr w) {u : Transition (World I J) (Label I J)}
    (hu : u ∈ tr) {p : PutArgs} (hp : Accepts u p) :
    w.accepted[u.pre.accepted.length]? = some p := by
  obtain ⟨rest, hrest⟩ := h.earlier u hu
  rw [← hrest, hp, List.append_assoc, List.getElem?_append_right (le_refl _), Nat.sub_self]
  rfl

theorem Traced.logged_step (h : Traced tr w) (he : Effect w v) (l : Label I J) {i : ℕ} {p : PutArgs}
    (hi : v.accepted[i]? = some p) :
    ∃ u ∈ ⟨w, l, v⟩ :: tr, u.pre.accepted.length = i ∧ Accepts u p := by
  have old (hi : w.accepted[i]? = some p) :
      ∃ u ∈ ⟨w, l, v⟩ :: tr, u.pre.accepted.length = i ∧ Accepts u p := by
    obtain ⟨u, hu, hlog⟩ := h.logged i p hi
    exact ⟨u, List.mem_cons_of_mem _ hu, hlog⟩
  rcases he.accepted with ha | ⟨q, ha⟩
  · rw [ha] at hi
    exact old hi
  · rw [ha, List.getElem?_append] at hi
    split at hi
    · exact old hi
    · rename_i hge
      have hlast : i - w.accepted.length = 0 := by
        by_contra hne
        rw [List.getElem?_eq_none (by rw [List.length_singleton]; omega)] at hi
        cases hi
      rw [hlast] at hi
      cases hi
      have hlen : w.accepted.length = i := by omega
      exact ⟨_, List.mem_cons_self, hlen, ha⟩

theorem FrozenSince.step {g : Tgid} {s : Tshid} {f : ℕ} (h : FrozenSince tr w g s f)
    (he : Effect w v) (l : Label I J) (hsame : v.groups g s = w.groups g s) :
    FrozenSince (⟨w, l, v⟩ :: tr) v g s f where
  bound := le_trans h.bound he.length_le
  data := by
    rcases he.accepted with ha | ⟨p, ha⟩
    · rw [ha, hsame]
      exact h.data
    · rw [ha, List.take_append_of_le_length h.bound, hsame]
      exact h.data
  since u hu p hp := by
    rw [hsame]
    rcases List.mem_cons.mp hu with rfl | hu
    · exact ⟨fun _ => rfl, fun _ => h.bound⟩
    · exact h.since u hu p hp

/-- A record that a serving group just froze has all accepted writes, and is new. -/
theorem Traced.frozen_now (h : Traced tr w) (hinv : Inv chain w) (l : Label I J) {g : Tgid}
    {s : Tshid} (haccepted : v.accepted = w.accepted) (hserving : (w.groups g s).state = .serving)
    (hnum : (w.groups g s).num < (v.groups g s).num)
    (hdata : (v.groups g s).data = (w.groups g s).data) :
    FrozenSince (⟨w, l, v⟩ :: tr) v g s v.accepted.length where
  bound := le_refl _
  data := by
    rw [List.take_length, haccepted, hdata]
    exact (Inv.shardSafe hinv s).serving g hserving
  since u hu p hp := by
    have hlen := hp.length
    rcases List.mem_cons.mp hu with rfl | hu
    · change v.accepted.length = w.accepted.length + 1 at hlen
      rw [haccepted] at hlen
      omega
    · have hle := (h.earlier u hu).length_le
      rw [haccepted]
      refine ⟨fun hf => by omega, fun heq => ?_⟩
      have hold := h.nums u hu g s
      rw [heq] at hold
      omega

theorem Traced.step (h : Traced tr w) (hinv : Inv chain w) (he : Effect w v) (l : Label I J) :
    Traced (⟨w, l, v⟩ :: tr) v where
  logged i p hi := h.logged_step he l hi
  earlier u hu := by
    rcases List.mem_cons.mp hu with rfl | hu
    · exact List.prefix_refl _
    · exact (h.earlier u hu).trans he.grows
  nums u hu g s := by
    rcases List.mem_cons.mp hu with rfl | hu
    · exact he.nums g s
    · exact le_trans (h.nums u hu g s) (he.nums g s)
  frozen g s hf := by
    rcases he.frozen g s hf with hsame | ⟨haccepted, hserving, hnum, hdata⟩
    · rw [hsame] at hf
      obtain ⟨f, hsince⟩ := h.frozen g s hf
      exact ⟨f, hsince.step he l hsame⟩
    · exact ⟨_, h.frozen_now hinv l haccepted hserving hnum hdata⟩

end History

section Clients

def Client.before : Client → ℕ
  | .idle => 0
  | .called _ before => before
  | .sent _ before _ => before

variable {chain : ConfigChain} {w v : World I J} [DecidableEq I] [DecidableEq J]

omit [DecidableEq I] in
theorem update_before (clients : J → Client) {n : ℕ} {i : J} {c : Client}
    (hc : Client.before c ≤ n ∨ Client.before c = Client.before (clients i)) (j : J) :
    Client.before (Function.update clients i c j) ≤ n ∨
      Client.before (Function.update clients i c j) = Client.before (clients j) := by
  by_cases hj : j = i
  · subst hj
    rw [Function.update_self]
    exact hc
  · rw [Function.update_of_ne hj]
    exact .inr rfl

theorem exec_clients {routes : ℕ → Tshid → Tgid → Bool} {l : Label I J}
    (hs : exec chain routes w l = some v) (j : J) :
    Client.before (v.clients j) ≤ w.accepted.length ∨
      Client.before (v.clients j) = Client.before (w.clients j) := by
  cases exec_stepped hs with
  | call i call => exact update_before w.clients (.inl (le_refl w.accepted.length)) j
  | route i gid call before hi =>
    refine update_before w.clients (.inr ?_) j
    rw [hi]
    rfl
  | retry i call before gid hi =>
    refine update_before w.clients (.inr ?_) j
    rw [hi]
    rfl
  | serve i dest gid r f hmsg hf =>
    cases hf with
    | nobody => exact .inr rfl
    | mover c m r' _ _ => exact .inr rfl
    | client i call before hi =>
      refine update_before w.clients ?_ j
      split
      · right
        rw [hi]
        rfl
      · exact .inl (Nat.zero_le _)
  | _ => exact .inr rfl

end Clients

section Reads

variable {chain : ConfigChain} [DecidableEq I] [DecidableEq J]
  {routes : ℕ → Tshid → Tgid → Bool} {w : World I J}
  {tr : List (Transition (World I J) (Label I J))}

theorem traced (hpos : 0 < (chain.config 1).num) (run : Run (migration chain I J routes) tr w) :
    Traced tr w ∧ ∀ j, Client.before (w.clients j) ≤ w.accepted.length := by
  refine Run.history (I := fun tr w =>
    Traced tr w ∧ ∀ j, Client.before (w.clients j) ≤ w.accepted.length) ?_ ?_ run
  · rintro s rfl
    refine ⟨⟨fun i p hi => ?_, fun u hu => ?_, fun u hu => ?_, fun g s hf => ?_⟩, fun j => ?_⟩
    · cases hi
    · cases hu
    · cases hu
    · change (if g = gid1 then Hold.serving else Hold.notOwned) = Hold.frozen at hf
      split at hf
      · cases hf
      · cases hf
    · exact Nat.zero_le _
  · rintro tr s l u run ⟨htr, hcl⟩ hstep
    have hinv := migration_inv hpos run
    have heff := exec_effect hinv hstep
    refine ⟨htr.step hinv heff l, fun j => ?_⟩
    rcases exec_clients hstep j with hle | heq
    · exact le_trans hle heff.length_le
    · rw [heq]
      exact le_trans (hcl j) heff.length_le

def Answers (w : World I J) (gid : Tgid) (key : String) (before : ℕ)
    (answer : Option (KvEntry String)) : Prop :=
  (∃ (i : ℕ) (j : J), w.inflight[i]? = some (gid, Request.get key) ∧ w.clients j = .sent (.get key) before gid) ∧
    answerOf (doGet (w.groups gid) key) = some answer

/-- A frozen group answers from a record that was the same when a write to `key` was
    accepted, before the `Get` was called. -/
def Outdated (tr : List (Transition (World I J) (Label I J))) (w : World I J) (gid : Tgid)
    (key : String) (before : ℕ) : Prop :=
  (w.groups gid (key2Shard key)).state = .frozen ∧ ∃ u ∈ tr, ∃ p, Accepts u p ∧ p.key = key ∧
    u.pre.groups gid (key2Shard key) = w.groups gid (key2Shard key) ∧
    u.post.accepted.length ≤ before

omit [DecidableEq I] [DecidableEq J] in
/-- A frozen record has all writes to `key` that count, unless it is outdated. -/
theorem FrozenSince.reflects_iff {gid : Tgid} {key : String} {before f : ℕ} {d : Data}
    (htr : Traced tr w) (hall : applyAll noData (ofShard (key2Shard key) w.accepted) = some d)
    (hfrozen : (w.groups gid (key2Shard key)).state = .frozen)
    (hsince : FrozenSince tr w gid (key2Shard key) f) (hbefore : before ≤ w.accepted.length) :
    Reflects w.accepted before key ((w.groups gid (key2Shard key)).data key) ↔
      ¬ Outdated tr w gid key before := by
  constructor
  · rintro ⟨n, hn, hlen, e, he, hkey⟩ ⟨-, u, hu, p, hp, rfl, hrec, hearly⟩
    have hidx := (hsince.since u hu p hp).mpr hrec
    have hul := hp.length
    have hfn : f ≤ n := by omega
    -- The write of `u` lies between the freeze and the point the answer would stand for.
    have hver := applyAll_version p.key (applyAll_between hfn hsince.data he)
    have hin : p ∈ ofShard (key2Shard p.key) ((w.accepted.take n).drop f) := by
      refine List.mem_filter.mpr ⟨mem_between.mpr ⟨u.pre.accepted.length, hidx, by omega, ?_⟩, ?_⟩
      · exact htr.getElem_of_accepts hu hp
      · exact decide_eq_true rfl
    have hcount : 0 < (ofShard (key2Shard p.key) ((w.accepted.take n).drop f)).countP
        (fun q => q.key = p.key) :=
      List.countP_pos_iff.mpr ⟨p, hin, decide_eq_true rfl⟩
    rw [hkey] at hver
    omega
  · intro hnot
    rcases Nat.le_total before f with hle | hle
    · exact ⟨f, hle, hsince.bound, _, hsince.data, rfl⟩
    · obtain ⟨e, he⟩ := applyAll_take hall before
      refine ⟨before, le_refl _, hbefore, e, he, ?_⟩
      refine applyAll_untouched (applyAll_between hle hsince.data he) (fun p hp hkey => hnot ?_)
      obtain ⟨i, hfi, hib, hi⟩ := mem_between.mp (List.mem_filter.mp hp).1
      obtain ⟨u, hu, hui, hacc⟩ := htr.logged i p hi
      have hul := hacc.length
      exact ⟨hfrozen, u, hu, p, hacc, hkey, (hsince.since u hu p hacc).mp (by omega), by omega⟩

/-- A read includes every write accepted before it was called exactly when it is not
    answered from an outdated frozen record. -/
theorem read_reflects_iff (hpos : 0 < (chain.config 1).num)
    (run : Run (migration chain I J routes) tr w) {gid : Tgid} {key : String} {before : ℕ}
    {answer : Option (KvEntry String)} (h : Answers w gid key before answer) :
    Reflects w.accepted before key answer ↔ ¬ Outdated tr w gid key before := by
  obtain ⟨htr, hclients⟩ := traced hpos run
  have hinv := migration_inv hpos run
  obtain ⟨⟨i, j, -, hj⟩, hanswer⟩ := h
  have hbefore := hclients j
  rw [hj] at hbefore
  obtain ⟨howned, rfl⟩ := answerOf_doGet hanswer
  cases hstate : (w.groups gid (key2Shard key)).state with
  | notOwned => exact absurd hstate howned
  | serving =>
    have hholds := (Inv.shardSafe hinv (key2Shard key)).serving gid hstate
    refine ⟨fun _ hout => ?_, fun _ => ⟨w.accepted.length, hbefore, le_refl _, _, ?_, rfl⟩⟩
    · have hfrozen := hout.1
      rw [hstate] at hfrozen
      cases hfrozen
    · rw [List.take_length]
      exact hholds
  | frozen =>
    obtain ⟨f, hsince⟩ := htr.frozen gid _ hstate
    obtain ⟨d, hall, -⟩ := hinv.shards (key2Shard key)
    exact hsince.reflects_iff htr hall hstate hbefore

end Reads

section Sample

/-- A write is on its way to the first group while the shard leaves it and comes back; it
    gets there when the second group still has its record. -/
def lateWrite : List (Label Unit Bool) :=
  calling true sampleCall gid1 ++ changing 0 1 ++ [.start () 1] ++ phase 4 ++ phase 5 ++
    [.serve 0 (.client true)] ++ calling false (.get "10") 2

def earlyWrite : List (Label Unit Bool) :=
  calling true sampleCall gid1 ++ [.serve 0 (.client true)] ++ changing 0 1 ++ [.start () 1] ++
    phase 4 ++ phase 5 ++ calling false (.get "10") 2

def readsFrozen (w : World Unit Bool) (answer : Option (KvEntry String)) : Bool :=
  (match w.inflight[6]? with
    | some (2, .get "10") => true
    | _ => false) &&
  (match w.clients false with
    | .sent (.get "10") 1 2 => true
    | _ => false) &&
  decide ((w.groups 2 (key2Shard "10")).state = .frozen ∧
    answerOf (doGet (w.groups 2) "10") = some answer)

theorem answers_of_readsFrozen {w : World Unit Bool} {answer : Option (KvEntry String)}
    (h : readsFrozen w answer = true) : Answers w 2 "10" 1 answer := by
  unfold readsFrozen at h
  simp only [Bool.and_eq_true, decide_eq_true_eq] at h
  obtain ⟨⟨hmsg, hclient⟩, -, hanswer⟩ := h
  refine ⟨⟨6, false, ?_, ?_⟩, hanswer⟩
  · split at hmsg
    · assumption
    · cases hmsg
  · split at hclient
    · assumption
    · cases hclient

end Sample

theorem read_reflects_earlyWrite : ∃ tr w,
    Run (migration (alternating 1) Unit Bool (byQuery (alternating 1))) tr w ∧
    Answers w 2 "10" 1 (some ⟨"x", 1⟩) ∧
    (Reflects w.accepted 1 "10" (some ⟨"x", 1⟩) ↔ ¬ Outdated tr w 2 "10" 1) := by
  have hsome : (replay (exec (alternating 1) (byQuery (alternating 1))) initially [] earlyWrite).map
      (fun r => readsFrozen r.2 (some ⟨"x", 1⟩)) = some true := by
    decide +kernel
  obtain ⟨⟨tr, w⟩, hr, hd⟩ := Option.map_eq_some_iff.mp hsome
  have hanswers := answers_of_readsFrozen hd
  have hrun : Run (migration (alternating 1) Unit Bool (byQuery (alternating 1))) tr w :=
    Run.replay (fun _ _ _ h => h) _ (.start rfl) hr
  exact ⟨tr, w, hrun, hanswers, read_reflects_iff (by decide) hrun hanswers⟩

/-- A client that follows the published configuration is told by the frozen group that the
    key does not exist, after the other group answered a `Put` to it with OK. -/
theorem frozen_read_misses_write : ∃ tr w,
    Run (migration (alternating 1) Unit Bool (byQuery (alternating 1))) tr w ∧
    Answers w 2 "10" 1 none ∧ ¬ Reflects w.accepted 1 "10" none := by
  have hsome : (replay (exec (alternating 1) (byQuery (alternating 1))) initially [] lateWrite).map
      (fun r => readsFrozen r.2 none && decide (r.2.accepted = [⟨"10", "x", 0⟩])) = some true := by
    decide +kernel
  obtain ⟨⟨tr, w⟩, hr, hd⟩ := Option.map_eq_some_iff.mp hsome
  obtain ⟨hreads, haccepted⟩ := (Bool.and_eq_true _ _).mp hd
  refine ⟨tr, w, Run.replay (fun _ _ _ h => h) _ (.start rfl) hr,
    answers_of_readsFrozen hreads, ?_⟩
  rw [of_decide_eq_true haccepted]
  rintro ⟨n, hn, hlen, d, hd, hkey⟩
  obtain rfl : n = 1 := Nat.le_antisymm hlen hn
  have happlied : (applyAll noData (ofShard (key2Shard "10")
      (([⟨"10", "x", 0⟩] : List PutArgs).take 1))).map (fun d => d "10") = some (some ⟨"x", 1⟩) := by
    decide +kernel
  rw [hd, Option.map_some, hkey] at happlied
  cases happlied

end DistributedLabs.MigrationReads
