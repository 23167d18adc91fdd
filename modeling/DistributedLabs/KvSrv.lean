import DistributedLabs.KvCalls

set_option autoImplicit false

/-!
# Clerks of the single server

`Clerk.Get` and `Clerk.Put` of `kvsrv1/client.go` over the handlers of
`kvsrv1/server.go`. The network may lose any request or reply: `Call` runs the handler at
most once, and only before it returns. Any number of calls are in progress at a time.
-/
namespace DistributedLabs.KvSrv
open KvServer KvCalls Linearizability Runs

/-- Where a call is in its loop: about to send, waiting, or waiting for a reply that the
    server has sent. -/
inductive Phase (V : Type) where
  | ready
  | calling
  | handled (reply : Reply V)

inductive Call (K V : Type) where
  | idle
  | running (op : Op K V) (resent : Bool) (phase : Phase V)
  | returned (op : Op K V) (result : Reply V)

structure World (I K V : Type) where
  kv : Store K V
  calls : I → Call K V

inductive Label (I K V : Type) where
  | invoke (c : I) (op : Op K V)
  | send (c : I)
  | handle (c : I)
  | fail (c : I)
  | answer (c : I)
deriving DecidableEq

variable {I K V : Type} [DecidableEq I]

def World.set (w : World I K V) (c : I) (call : Call K V) : World I K V :=
  { w with calls := Function.update w.calls c call }

def exec [DecidableEq K] (w : World I K V) : Label I K V → Option (World I K V)
  | .invoke c op =>
    match w.calls c with
    | .idle => some (w.set c (.running op false .ready))
    | _ => none
  | .send c =>
    match w.calls c with
    | .running op resent .ready => some (w.set c (.running op resent .calling))
    | _ => none
  | .handle c =>
    match w.calls c with
    | .running op resent .calling =>
      some { w.set c (.running op resent (.handled (doOp w.kv op).2)) with
        kv := (doOp w.kv op).1 }
    | _ => none
  | .fail c =>
    match w.calls c with
    | .running op _ .calling => some (w.set c (.running op true .ready))
    | .running op _ (.handled _) => some (w.set c (.running op true .ready))
    | _ => none
  | .answer c =>
    match w.calls c with
    | .running op resent (.handled reply) =>
      some (w.set c (.returned op (clerkResult resent reply)))
    | _ => none

inductive Stepped [DecidableEq K] (w : World I K V) : Label I K V → World I K V → Prop where
  | invoke (c : I) (op : Op K V) (hc : w.calls c = .idle) :
      Stepped w (.invoke c op) (w.set c (.running op false .ready))
  | send (c : I) (op : Op K V) (resent : Bool) (hc : w.calls c = .running op resent .ready) :
      Stepped w (.send c) (w.set c (.running op resent .calling))
  | handle (c : I) (op : Op K V) (resent : Bool) (hc : w.calls c = .running op resent .calling) :
      Stepped w (.handle c) { w.set c (.running op resent (.handled (doOp w.kv op).2)) with
        kv := (doOp w.kv op).1 }
  | lose (c : I) (op : Op K V) (resent : Bool) (hc : w.calls c = .running op resent .calling) :
      Stepped w (.fail c) (w.set c (.running op true .ready))
  | loseReply (c : I) (op : Op K V) (resent : Bool) (reply : Reply V)
      (hc : w.calls c = .running op resent (.handled reply)) :
      Stepped w (.fail c) (w.set c (.running op true .ready))
  | answer (c : I) (op : Op K V) (resent : Bool) (reply : Reply V)
      (hc : w.calls c = .running op resent (.handled reply)) :
      Stepped w (.answer c) (w.set c (.returned op (clerkResult resent reply)))

theorem exec_stepped [DecidableEq K] {w v : World I K V} {l : Label I K V}
    (h : exec w l = some v) : Stepped w l v := by
  cases l with
  | invoke c op =>
    dsimp only [exec] at h
    split at h <;> cases h
    exact .invoke c op ‹_›
  | send c =>
    dsimp only [exec] at h
    split at h <;> cases h
    exact .send c _ _ ‹_›
  | handle c =>
    dsimp only [exec] at h
    split at h <;> cases h
    exact .handle c _ _ ‹_›
  | fail c =>
    dsimp only [exec] at h
    split at h <;> cases h
    · exact .lose c _ _ ‹_›
    · exact .loseReply c _ _ _ ‹_›
  | answer c =>
    dsimp only [exec] at h
    split at h <;> cases h
    exact .answer c _ _ _ ‹_›

def kvsrv (I K V : Type) [DecidableEq I] [DecidableEq K] :
    Machine (World I K V) (Label I K V) where
  init w := w = ⟨fun _ => none, fun _ => .idle⟩
  step w l v := exec w l = some v

section observations

def visible (t : Transition (World I K V) (Label I K V)) : Option (Event I (Op K V) (Reply V)) :=
  match t.label with
  | .invoke c op => some (.invoke c op)
  | .answer c =>
    match t.post.calls c with
    | .returned _ result => some (.ret c result)
    | _ => none
  | _ => none

def history (tr : List (Transition (World I K V) (Label I K V))) :
    List (Event I (Op K V) (Reply V)) :=
  (tr.filterMap visible).reverse

variable [DecidableEq K] [DecidableEq V]

def tookEffect (c : I) (t : Transition (World I K V) (Label I K V)) : Bool :=
  match t.label, t.pre.calls c with
  | .handle d, .running op _ _ => decide (d = c ∧ t.post.kv op.key ≠ t.pre.kv op.key)
  | _, _ => false

def effects (tr : List (Transition (World I K V) (Label I K V))) (c : I) : ℕ :=
  tr.countP (tookEffect c)

def versions (tr : List (Transition (World I K V) (Label I K V))) (key : K) : List ℕ :=
  ((tr.filter fun t => t.post.kv key ≠ t.pre.kv key).map
    fun t => versionOf (t.post.kv key)).reverse

def SetBy (t : Transition (World I K V) (Label I K V)) (c : I) (key : K) : Prop :=
  ∃ value version resent, t.label = .handle c ∧
    t.pre.calls c = .running (.put key value version) resent .calling ∧
    t.post.kv = Function.update t.pre.kv key (some ⟨value, version + 1⟩)

/-- The key goes through the versions 1, 2, 3, ..., each set by one `Clerk.Put` that took
    effect once. -/
def VersionsInOrder (tr : List (Transition (World I K V) (Label I K V))) (w : World I K V)
    (key : K) : Prop :=
  versions tr key = List.range' 1 (versionOf (w.kv key)) ∧
    ∀ t ∈ tr, t.post.kv key ≠ t.pre.kv key → ∃ c, SetBy t c key ∧ effects tr c = 1

end observations

omit [DecidableEq I] in
theorem history_cons (t : Transition (World I K V) (Label I K V))
    (tr : List (Transition (World I K V) (Label I K V))) :
    history (t :: tr) = history tr ++ (visible t).toList := by
  unfold history
  rw [List.filterMap_cons]
  cases visible t <;> simp

section simulation
variable [DecidableEq K]

/-- How a call looks as one that is executed again until it is answered, if `m` of its
    transmissions took effect. -/
inductive Rel (m : ℕ) : Call K V → Retries.Status (Op K V) (Reply V) (Reply V) → Prop where
  | idle (hm : m = 0) : Rel m .idle .idle
  | ready (op : Op K V) (resent : Bool) (runs : List (Reply V))
      (hm : m = Retries.effects (kvService K V) op runs) (hr : runs = [] ∨ resent = true) :
      Rel m (.running op resent .ready) (.active op runs)
  | calling (op : Op K V) (resent : Bool) (runs : List (Reply V))
      (hm : m = Retries.effects (kvService K V) op runs) (hr : runs = [] ∨ resent = true) :
      Rel m (.running op resent .calling) (.active op runs)
  | handled (op : Op K V) (resent : Bool) (reply : Reply V) (older : List (Reply V))
      (hm : m = Retries.effects (kvService K V) op (reply :: older))
      (hr : older = [] ∨ resent = true) :
      Rel m (.running op resent (.handled reply)) (.active op (reply :: older))
  | returned (op : Op K V) (result : Reply V) (runs : List (Reply V))
      (hm : m = Retries.effects (kvService K V) op runs) :
      Rel m (.returned op result) (.returned op runs result)

variable [DecidableEq V]

structure Sim (tr : List (Transition (World I K V) (Label I K V))) (w : World I K V)
    (a : Retries.World (Store K V) I (Op K V) (Reply V) (Reply V)) : Prop where
  kv : a.state = w.kv
  history : a.history = history tr
  calls : ∀ c, Rel (effects tr c) (w.calls c) (a.calls c)

variable {tr : List (Transition (World I K V) (Label I K V))} {w v : World I K V}
  {a : Retries.World (Store K V) I (Op K V) (Reply V) (Reply V)} {l : Label I K V}

theorem Sim.move (hs : Sim tr w a) (hl : ∀ d, l ≠ .handle d) (c : I) {x : Call K V}
    {y : Retries.Status (Op K V) (Reply V) (Reply V)} {e : Option (Event I (Op K V) (Reply V))}
    (hv : visible ⟨w, l, w.set c x⟩ = e) (hxy : Rel (effects tr c) x y) :
    Sim (⟨w, l, w.set c x⟩ :: tr) (w.set c x)
      ⟨a.state, Function.update a.calls c y, a.history ++ e.toList⟩ where
  kv := hs.kv
  history := by rw [history_cons, hv, hs.history]
  calls d := by
    have hquiet : effects (⟨w, l, w.set c x⟩ :: tr) d = effects tr d := by
      have hno : tookEffect d ⟨w, l, w.set c x⟩ = false := by
        cases l <;> first | rfl | exact absurd rfl (hl _)
      simp [effects, hno]
    rw [hquiet]
    by_cases hd : d = c
    · subst hd
      simpa [World.set] using hxy
    · simpa [World.set, hd] using hs.calls d

theorem Sim.stutter (hs : Sim tr w a) (hl : ∀ d, l ≠ .handle d) (c : I) {x : Call K V}
    (hv : visible ⟨w, l, w.set c x⟩ = none) (hx : Rel (effects tr c) x (a.calls c)) :
    Sim (⟨w, l, w.set c x⟩ :: tr) (w.set c x) a := by
  have h := hs.move hl c hv hx
  rwa [Function.update_eq_self, Option.toList_none, List.append_nil] at h

theorem Sim.run (hs : Sim tr w a) {c : I} {op : Op K V} {resent : Bool} {runs : List (Reply V)}
    (hc : w.calls c = .running op resent .calling) (hr : runs = [] ∨ resent = true)
    (hm : effects tr c = Retries.effects (kvService K V) op runs) :
    Sim (⟨w, .handle c, { w.set c (.running op resent (.handled (doOp w.kv op).2)) with
        kv := (doOp w.kv op).1 }⟩ :: tr)
      { w.set c (.running op resent (.handled (doOp w.kv op).2)) with kv := (doOp w.kv op).1 }
      { a with
        state := (doOp w.kv op).1
        calls := Function.update a.calls c (.active op ((doOp w.kv op).2 :: runs)) } where
  kv := rfl
  history := by simp [history_cons, visible, hs.history]
  calls d := by
    by_cases hd : d = c
    · subst hd
      have hcount : effects (⟨w, .handle d,
          { w.set d (.running op resent (.handled (doOp w.kv op).2)) with
            kv := (doOp w.kv op).1 }⟩ :: tr) d =
          Retries.effects (kvService K V) op ((doOp w.kv op).2 :: runs) := by
        rw [Retries.effects_cons, ← hm, effects, List.countP_cons]
        congr 1
        simp only [tookEffect, hc, true_and, decide_eq_true_eq]
        simp only [doOp_key_ne_iff]
      simpa [World.set] using Rel.handled op resent _ runs hcount hr
    · have hquiet : tookEffect d ⟨w, .handle c,
          { w.set c (.running op resent (.handled (doOp w.kv op).2)) with
            kv := (doOp w.kv op).1 }⟩ = false := by
        unfold tookEffect
        split
        case h_1 heq _ =>
          cases heq
          simp [Ne.symm hd]
        case h_2 => rfl
      rw [effects, List.countP_cons, hquiet]
      simpa [World.set, hd, effects] using hs.calls d

theorem Sim.unsent (hs : Sim tr w a) {c : I} (hc : w.calls c = .idle) :
    a.calls c = .idle ∧ effects tr c = 0 := by
  have hrel := hs.calls c
  rw [hc] at hrel
  generalize a.calls c = y at hrel ⊢
  cases hrel with
  | idle hm => exact ⟨rfl, hm⟩

theorem Sim.ready (hs : Sim tr w a) {c : I} {op : Op K V} {resent : Bool}
    (hc : w.calls c = .running op resent .ready) :
    ∃ runs, a.calls c = .active op runs ∧
      effects tr c = Retries.effects (kvService K V) op runs ∧ (runs = [] ∨ resent = true) := by
  have hrel := hs.calls c
  rw [hc] at hrel
  generalize a.calls c = y at hrel ⊢
  cases hrel with
  | ready _ _ runs hm hr => exact ⟨runs, rfl, hm, hr⟩

theorem Sim.calling (hs : Sim tr w a) {c : I} {op : Op K V} {resent : Bool}
    (hc : w.calls c = .running op resent .calling) :
    ∃ runs, a.calls c = .active op runs ∧
      effects tr c = Retries.effects (kvService K V) op runs ∧ (runs = [] ∨ resent = true) := by
  have hrel := hs.calls c
  rw [hc] at hrel
  generalize a.calls c = y at hrel ⊢
  cases hrel with
  | calling _ _ runs hm hr => exact ⟨runs, rfl, hm, hr⟩

theorem Sim.handled (hs : Sim tr w a) {c : I} {op : Op K V} {resent : Bool} {reply : Reply V}
    (hc : w.calls c = .running op resent (.handled reply)) :
    ∃ older, a.calls c = .active op (reply :: older) ∧
      effects tr c = Retries.effects (kvService K V) op (reply :: older) ∧
      (older = [] ∨ resent = true) := by
  have hrel := hs.calls c
  rw [hc] at hrel
  generalize a.calls c = y at hrel ⊢
  cases hrel with
  | handled _ _ _ older hm hr => exact ⟨older, rfl, hm, hr⟩

/-- Every step of a clerk or the server is one of the repeated calls, or none. -/
theorem sim_step (hs : Sim tr w a) (h : exec w l = some v) :
    ∃ b, (b = a ∨ ∃ l', Retries.exec (kvService K V) a l' = some b) ∧
      Sim (⟨w, l, v⟩ :: tr) v b := by
  cases exec_stepped h with
  | invoke c op hc =>
    obtain ⟨hac, hm⟩ := hs.unsent hc
    refine ⟨_, .inr ⟨.invoke c op, ?_⟩, hs.move (l := .invoke c op)
      (e := some (.invoke c op)) (by simp) c rfl (.ready op false [] hm (.inl rfl))⟩
    simp [Retries.exec, hac]
  | send c op resent hc =>
    obtain ⟨runs, hac, hm, hr⟩ := hs.ready hc
    refine ⟨a, .inl rfl, hs.stutter (l := .send c) (by simp) c rfl ?_⟩
    rw [hac]
    exact .calling op resent runs hm hr
  | handle c op resent hc =>
    obtain ⟨runs, hac, hm, hr⟩ := hs.calling hc
    refine ⟨_, .inr ⟨.run c, ?_⟩, hs.run hc hr hm⟩
    simp [Retries.exec, hac, hs.kv, kvService]
  | lose c op resent hc =>
    obtain ⟨runs, hac, hm, hr⟩ := hs.calling hc
    refine ⟨a, .inl rfl, hs.stutter (l := .fail c) (by simp) c rfl ?_⟩
    rw [hac]
    exact .ready op true runs hm (.inr rfl)
  | loseReply c op resent reply hc =>
    obtain ⟨older, hac, hm, hr⟩ := hs.handled hc
    refine ⟨a, .inl rfl, hs.stutter (l := .fail c) (by simp) c rfl ?_⟩
    rw [hac]
    exact .ready op true (reply :: older) hm (.inr rfl)
  | answer c op resent reply hc =>
    obtain ⟨older, hac, hm, hr⟩ := hs.handled hc
    refine ⟨_, .inr ⟨.ret c resent, ?_⟩,
      hs.move (l := .answer c) (e := some (.ret c (clerkResult resent reply))) (by simp) c
        (by simp [visible, World.set]) (.returned op _ (reply :: older) hm)⟩
    have hgo : (older.isEmpty || resent) = true := by simpa using hr
    simp [Retries.exec, hac, hgo, kvService]

theorem simulates (run : Run (kvsrv I K V) tr w) :
    ∃ tr' a, Run (Retries.calls I (kvService K V)) tr' a ∧ Sim tr w a := by
  refine run.simulate (R := Sim) ?_ fun tr s l u a hs h => sim_step hs h
  rintro _ rfl
  exact ⟨_, rfl, rfl, rfl, fun c => .idle rfl⟩

theorem effects_le_one (run : Run (kvsrv I K V) tr w) (c : I) : effects tr c ≤ 1 := by
  obtain ⟨tr', a, hrun, hs⟩ := simulates run
  have hrel := hs.calls c
  generalize hac : a.calls c = y at hrel
  generalize w.calls c = x at hrel
  cases hrel with
  | idle hm => omega
  | ready op resent runs hm hr =>
    have := Retries.effects_le_one kv_lawful hrun hac
    omega
  | calling op resent runs hm hr =>
    have := Retries.effects_le_one kv_lawful hrun hac
    omega
  | handled op resent reply older hm hr =>
    have := Retries.effects_le_one kv_lawful hrun hac
    omega
  | returned op result runs hm =>
    have := (Retries.outcome kv_lawful hrun hac).atMostOnce
    omega

theorem put_truthful (run : Run (kvsrv I K V) tr w) {c : I} {key : K} {value : V} {version : ℕ}
    {err : Err} (hc : w.calls c = .returned (.put key value version) (.put err)) :
    Truthful err (effects tr c) := by
  obtain ⟨tr', a, hrun, hs⟩ := simulates run
  have hrel := hs.calls c
  rw [hc] at hrel
  generalize hac : a.calls c = y at hrel
  cases hrel with
  | returned _ _ runs hm =>
    rw [hm]
    exact truthful_of_outcome (Retries.outcome kv_lawful hrun hac)

end simulation

section versions
variable [DecidableEq K]

/-- Only the handler of a `Put` changes the map, at its key, and to the next version. -/
theorem exec_kv {w v : World I K V} {l : Label I K V} (h : exec w l = some v) :
    v.kv = w.kv ∨ ∃ c key, SetBy ⟨w, l, v⟩ c key ∧
      versionOf (v.kv key) = versionOf (w.kv key) + 1 := by
  cases exec_stepped h with
  | handle c op resent hc =>
    cases op with
    | get key => exact .inl rfl
    | put key value version =>
      rcases put_cases w.kv key value version with ⟨hm, hput⟩ | ⟨_, _, hput⟩ | ⟨_, _, hput⟩
      · refine .inr ⟨c, key, ⟨value, version, resent, rfl, hc, ?_⟩, ?_⟩
        · simp [doOp, hput]
        · rw [hm.versionOf]
          simp [doOp, hput, versionOf]
      · left
        simp [doOp, hput]
      · left
        simp [doOp, hput]
  | _ => exact .inl rfl

variable [DecidableEq V] {tr : List (Transition (World I K V) (Label I K V))} {w : World I K V}

omit [DecidableEq I] [DecidableEq K] in
theorem versions_cons (t : Transition (World I K V) (Label I K V)) (key : K) :
    versions (t :: tr) key = if t.post.kv key = t.pre.kv key then versions tr key
      else versions tr key ++ [versionOf (t.post.kv key)] := by
  unfold versions
  by_cases h : t.post.kv key = t.pre.kv key
  · rw [if_pos h, List.filter_cons_of_neg (by simpa using h)]
  · rw [if_neg h, List.filter_cons_of_pos (by simpa using h), List.map_cons, List.reverse_cons]

theorem versions_eq (run : Run (kvsrv I K V) tr w) (key : K) :
    versions tr key = List.range' 1 (versionOf (w.kv key)) := by
  refine run.history (I := fun tr w => versions tr key = List.range' 1 (versionOf (w.kv key))) ?_ ?_
  · rintro _ rfl
    rfl
  · intro tr w l v _ ih h
    rw [versions_cons, ih]
    split_ifs with hk
    · exact congrArg (fun e => List.range' 1 (versionOf e)) hk.symm
    · have hk : v.kv key ≠ w.kv key := hk
      rcases exec_kv h with hkv | ⟨c, key', ⟨value, version, _, _, _, hset⟩, hver⟩
      · rw [hkv] at hk
        exact absurd rfl hk
      · have heq : key = key' := by
          by_contra hne
          have hset : v.kv = _ := hset
          rw [hset, Function.update_of_ne hne] at hk
          exact hk rfl
        subst heq
        change List.range' 1 (versionOf (w.kv key)) ++ [versionOf (v.kv key)] = _
        rw [hver, List.range'_concat]
        simp [Nat.add_comm]

theorem versions_in_order (run : Run (kvsrv I K V) tr w) (key : K) : VersionsInOrder tr w key := by
  refine ⟨versions_eq run key, fun t ht hk => ?_⟩
  rcases exec_kv (run.visited ht).2.1 with hkv | ⟨c, key', hset, _⟩
  · rw [hkv] at hk
    exact absurd rfl hk
  · obtain ⟨value, version, resent, hl, hc, hkv⟩ := hset
    have heq : key = key' := by
      by_contra hne
      rw [hkv, Function.update_of_ne hne] at hk
      exact hk rfl
    subst heq
    refine ⟨c, ⟨value, version, resent, hl, hc, hkv⟩, ?_⟩
    have htook : tookEffect c t = true := by
      unfold tookEffect
      rw [hl, hc]
      exact decide_eq_true ⟨rfl, hk⟩
    have hpos : 0 < effects tr c := List.countP_pos_iff.mpr ⟨t, ht, htook⟩
    have hle := effects_le_one run c
    omega

end versions

section main
variable [DecidableEq K] [DecidableEq V]
  {tr : List (Transition (World I K V) (Label I K V))} {w : World I K V}

def PutsTruthful (tr : List (Transition (World I K V) (Label I K V))) (w : World I K V) : Prop :=
  ∀ c key value version err, w.calls c = .returned (.put key value version) (.put err) →
    Truthful err (effects tr c)

theorem kvsrv_linearizable (run : Run (kvsrv I K V) tr w) :
    Linearizable (versionedMap K V) (history tr) ∧ PutsTruthful tr w ∧
      ∀ key, VersionsInOrder tr w key := by
  refine ⟨?_, fun c key value version err hc => put_truthful run hc, versions_in_order run⟩
  obtain ⟨tr', a, hrun, hs⟩ := simulates run
  rw [← hs.history]
  have : Nonempty (Reply V) := ⟨.put .ok⟩
  exact Retries.linearizable kv_lawful hrun

/-- Two writers ask for version 0: the first one's reply is lost and its repetition is told
    ErrVersion; the second one is refused at once; then a reader. -/
def lostReply : Option (List (Transition (World ℕ ℕ ℕ) (Label ℕ ℕ ℕ)) × World ℕ ℕ ℕ) :=
  replay exec ⟨fun _ => none, fun _ => .idle⟩ []
    [.invoke 0 (.put 5 70 0), .invoke 1 (.put 5 80 0), .send 0, .handle 0, .send 1, .handle 1,
      .fail 0, .send 0, .handle 0, .answer 1, .answer 0, .invoke 2 (.get 5), .send 2, .handle 2,
      .answer 2]

theorem kvsrv_linearizable_lostReply : ∃ r, lostReply = some r ∧
    history r.1 = [.invoke 0 (.put 5 70 0), .invoke 1 (.put 5 80 0), .ret 1 (.put .errVersion),
      .ret 0 (.put .errMaybe), .invoke 2 (.get 5), .ret 2 (.get (some ⟨70, 1⟩) .ok)] ∧
    effects r.1 0 = 1 ∧ Linearizable (versionedMap ℕ ℕ) (history r.1) ∧ PutsTruthful r.1 r.2 ∧
    ∀ key, VersionsInOrder r.1 r.2 key := by
  have hsome : lostReply.map (fun r => decide (history r.1 =
      [.invoke 0 (.put 5 70 0), .invoke 1 (.put 5 80 0), .ret 1 (.put .errVersion),
        .ret 0 (.put .errMaybe), .invoke 2 (.get 5), .ret 2 (.get (some ⟨70, 1⟩) .ok)] ∧
      effects r.1 0 = 1)) = some true := by decide +kernel
  obtain ⟨r, hr, hd⟩ := Option.map_eq_some_iff.mp hsome
  obtain ⟨hhist, heff⟩ := of_decide_eq_true hd
  exact ⟨r, hr, hhist, heff, kvsrv_linearizable (Run.replay (fun _ _ _ h => h) _ (.start rfl) hr)⟩

end main
end DistributedLabs.KvSrv
