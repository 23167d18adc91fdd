import DistributedLabs.KvSrv
import DistributedLabs.KvStack
import DistributedLabs.Locality

set_option autoImplicit false

/-!
# The testers' description of the store

`models1/kv.go` describes one key of the store and splits a log of operations by key;
`kvtest1/porcupine.go` writes that log around the clerks' calls. The search for an order of
the operations is the porcupine library's and is not modelled; what is stated here is that
there is one. Two things are shown: splitting the log loses nothing, and in the logs of the
clerks of `kvsrv1` and `kvraft1` every part has a legal order, unless a `Put` was answered
with `ErrNoKey`, which the description of a key has no place for. Versions, which are
`uint64` in the source, are natural numbers.
-/
namespace DistributedLabs.Porcupine
open KvServer KvCalls Linearizability Runs Locality

structure KvInput where
  op : ℕ
  key : String
  value : String
  version : ℕ
deriving DecidableEq

structure KvOutput where
  value : String
  version : ℕ
  err : Err
deriving DecidableEq

structure KvState where
  value : String
  version : ℕ

structure Operation (In Out : Type) where
  input : In
  call : ℤ
  output : Out
  ret : ℤ
deriving DecidableEq

structure Model (σ In Out : Type) where
  partition : List (Operation In Out) → List (List (Operation In Out))
  init : σ
  step : σ → In → Out → Bool × σ

section model
variable {σ In Out : Type}

def Model.next (m : Model σ In Out) (s : σ) (o : Operation In Out) : Option σ :=
  let r := m.step s o.input o.output
  if r.1 then some r.2 else none

/-- Every part of the log has an order that agrees with the times and that `step` accepts from
    `init` on. -/
def Model.PartsLegal (m : Model σ In Out) (history : List (Operation In Out)) : Prop :=
  ∀ part ∈ m.partition history, Legal Operation.call Operation.ret m.next m.init part

end model

abbrev KvOperation := Operation KvInput KvOutput

def opKey (v : KvOperation) : String := v.input.key

def kvModel : Model KvState KvInput KvOutput where
  partition history :=
    let m := history.foldl (fun m v => Function.update m (opKey v) (m (opKey v) ++ [v])) fun _ => []
    let keys := (history.map opKey).dedup.insertionSort (· ≤ ·)
    keys.map m
  init := ⟨"", 0⟩
  step st inp out :=
    match inp.op with
    | 0 => (decide (out.value = st.value), st)
    | 1 =>
      if st.version = inp.version then
        (decide (out.err = .ok ∨ out.err = .errMaybe), ⟨inp.value, st.version + 1⟩)
      else (decide (out.err = .errVersion ∨ out.err = .errMaybe), st)
    | _ => (false, st)

section partition

theorem partition_get (history : List KvOperation) (m : String → List KvOperation) (k : String) :
    history.foldl (fun m v => Function.update m (opKey v) (m (opKey v) ++ [v])) m k =
      m k ++ part opKey k history := by
  induction history generalizing m with
  | nil => simp [part]
  | cons v vs ih =>
    rw [List.foldl_cons, ih]
    by_cases h : opKey v = k
    · subst h
      rw [Function.update_self, part_cons_self, List.append_assoc, List.singleton_append]
    · rw [Function.update_of_ne (Ne.symm h), part_cons_of_ne h]

theorem mem_partition {history l : List KvOperation} :
    l ∈ kvModel.partition history ↔ ∃ k ∈ history.map opKey, part opKey k history = l := by
  simp only [kvModel, List.mem_map, List.mem_insertionSort, List.mem_dedup, partition_get,
    List.nil_append]

def WholeLegal (history : List KvOperation) : Prop :=
  Legal Operation.call Operation.ret (whole opKey kvModel.next) (fun _ => kvModel.init) history

theorem partsLegal_iff (history : List KvOperation) : kvModel.PartsLegal history ↔
    ∀ k, Legal Operation.call Operation.ret kvModel.next kvModel.init (part opKey k history) := by
  constructor
  · intro h k
    by_cases hk : k ∈ history.map opKey
    · exact h _ (mem_partition.mpr ⟨k, hk, rfl⟩)
    · have hnil : part opKey k history = [] := by
        rw [part, List.filter_eq_nil_iff]
        intro o ho hkey
        exact hk (List.mem_map.mpr ⟨o, ho, of_decide_eq_true hkey⟩)
      rw [hnil]
      exact ⟨[], .nil, .nil, trivial⟩
  · intro h l hl
    obtain ⟨k, _, rfl⟩ := mem_partition.mp hl
    exact h k

/-- What is legal key by key is legal for the whole store. -/
theorem partition_exact (history : List KvOperation) (span : ∀ o ∈ history, o.call ≤ o.ret) :
    kvModel.PartsLegal history ↔ WholeLegal history := by
  rw [partsLegal_iff, WholeLegal, legal_whole_iff history span]

theorem partition_exact_twoKeys :
    kvModel.partition [⟨⟨0, "y", "", 0⟩, 1, ⟨"", 0, .errNoKey⟩, 2⟩,
      ⟨⟨1, "x", "a", 0⟩, 0, ⟨"", 0, .ok⟩, 3⟩] =
      [[⟨⟨1, "x", "a", 0⟩, 0, ⟨"", 0, .ok⟩, 3⟩], [⟨⟨0, "y", "", 0⟩, 1, ⟨"", 0, .errNoKey⟩, 2⟩]] ∧
    (kvModel.PartsLegal [⟨⟨0, "y", "", 0⟩, 1, ⟨"", 0, .errNoKey⟩, 2⟩,
        ⟨⟨1, "x", "a", 0⟩, 0, ⟨"", 0, .ok⟩, 3⟩] ↔
      WholeLegal [⟨⟨0, "y", "", 0⟩, 1, ⟨"", 0, .errNoKey⟩, 2⟩,
        ⟨⟨1, "x", "a", 0⟩, 0, ⟨"", 0, .ok⟩, 3⟩]) :=
  ⟨by decide +kernel, partition_exact _ (by decide)⟩

end partition

section log
variable {I : Type}

def logGet (key : String) (entry : Option (KvEntry String)) (err : Err) (start stop : ℤ) :
    KvOperation :=
  ⟨⟨0, key, "", 0⟩, start, ⟨(entry.map KvEntry.value).getD "", (entry.map KvEntry.version).getD 0,
    err⟩, stop⟩

def logPut (key value : String) (version : ℕ) (err : Err) (start stop : ℤ) : KvOperation :=
  ⟨⟨1, key, value, version⟩, start, ⟨"", 0, err⟩, stop⟩

def logCall (op : Op String String) (res : Reply String) (start stop : ℤ) : Option KvOperation :=
  match op, res with
  | .get key, .get entry err => some (logGet key entry err start stop)
  | .put key value version, .put err => some (logPut key value version err start stop)
  | _, _ => none

variable [DecidableEq I]

def opLog (H : List (Event I (Op String String) (Reply String))) (start stop : I → ℤ) :
    List KvOperation :=
  (returns H).filterMap fun x =>
    ((invokes H).lookup x.1).bind fun op => logCall op x.2 (start x.1) (stop x.1)

/-- The clock does not run backwards: a call that it shows to have ended before another one
    began had returned when that one was called. -/
def Timed (H : List (Event I (Op String String) (Reply String))) (start stop : I → ℤ) : Prop :=
  (∀ c, start c ≤ stop c) ∧
    ∀ c d, (∃ r, Event.ret c r ∈ H) → (∃ op, Event.invoke d op ∈ H) → stop c < start d →
      Before H c d

end log

section accepted
variable {I : Type} {H : List (Event I (Op String String) (Reply String))}

def keyState (kv : Store String String) (k : String) : KvState :=
  match kv k with
  | none => ⟨"", 0⟩
  | some e => ⟨e.value, e.version⟩

theorem keyState_update (kv : Store String String) (k : String) (e : KvEntry String) :
    keyState (Function.update kv k (some e)) =
      Function.update (keyState kv) k ⟨e.value, e.version⟩ := by
  funext j
  by_cases h : j = k
  · subst h
    simp [keyState]
  · simp [keyState, h]

/-- An operation that the store may have answered is one that the model accepts, but for a `Put`
    with `ErrNoKey`. -/
theorem next_of_step {kv kv' : Store String String} {op : Op String String} {res : Reply String}
    (h : (versionedMap String String).step kv op res kv') (hne : res ≠ .put .errNoKey)
    (start stop : ℤ) : ∃ o, logCall op res start stop = some o ∧ o.call = start ∧ o.ret = stop ∧
      whole opKey kvModel.next (keyState kv) o = some (keyState kv') := by
  cases op with
  | get key =>
    cases res with
    | put err => exact absurd h id
    | get entry err =>
      obtain ⟨rfl, rfl, _⟩ := h
      refine ⟨_, rfl, rfl, rfl, ?_⟩
      have hvalue : ((kv' key).map KvEntry.value).getD "" = (keyState kv' key).value := by
        unfold keyState
        cases kv' key <;> rfl
      simp [whole, Model.next, kvModel, logGet, opKey, hvalue]
  | put key value version =>
    cases res with
    | get entry err => exact absurd h id
    | put err =>
      refine ⟨_, rfl, rfl, rfl, ?_⟩
      rcases h with ⟨hmatch, rfl, herr⟩ | ⟨hmatch, rfl, ⟨_, rfl⟩ | ⟨hsome, herr⟩⟩
      · have hversion : (keyState kv key).version = version := by
          unfold keyState
          cases hk : kv key with
          | none =>
            rw [hk] at hmatch
            exact hmatch.symm
          | some e =>
            rw [hk] at hmatch
            exact hmatch
        rw [keyState_update]
        simp [whole, Model.next, kvModel, logPut, opKey, hversion, herr]
      · exact absurd rfl hne
      · have hversion : (keyState kv' key).version ≠ version := by
          unfold keyState
          cases hk : kv' key with
          | none => exact absurd hk hsome
          | some e =>
            rw [hk] at hmatch
            exact hmatch
        simp [whole, Model.next, kvModel, logPut, opKey, hversion, herr]

theorem logCall_times {op : Op String String} {res : Reply String} {start stop : ℤ} {o : KvOperation}
    (h : logCall op res start stop = some o) : o.call = start ∧ o.ret = stop := by
  cases op <;> cases res <;> cases h <;> exact ⟨rfl, rfl⟩

theorem lookup_of_nodup {α β : Type} [DecidableEq α] {l : List (α × β)}
    (hn : (l.map Prod.fst).Nodup) {a : α} {b : β} (h : (a, b) ∈ l) : l.lookup a = some b := by
  induction l with
  | nil => cases h
  | cons x l ih =>
    obtain ⟨c, d⟩ := x
    rw [List.map_cons, List.nodup_cons] at hn
    rcases List.mem_cons.mp h with heq | htail
    · cases heq
      simp
    · have hne : a ≠ c := fun hac =>
        hn.1 (List.mem_map.mpr ⟨(a, b), htail, hac⟩)
      rw [List.lookup_cons, beq_eq_false_iff_ne.mpr hne]
      exact ih hn.2 htail

def entries (L : List (Done I (Op String String) (Reply String))) (start stop : I → ℤ) :
    List KvOperation :=
  L.filterMap fun x => logCall x.op x.res (start x.id) (stop x.id)

theorem accepts_entries {kv kv' : Store String String}
    {L : List (Done I (Op String String) (Reply String))}
    (h : (versionedMap String String).Legal kv L kv') (hne : ∀ x ∈ L, x.res ≠ .put .errNoKey)
    (start stop : I → ℤ) :
    Accepts (whole opKey kvModel.next) (keyState kv) (entries L start stop) := by
  induction h with
  | nil => trivial
  | @cons _ _ _ x xs hstep _ ih =>
    obtain ⟨o, ho, _, _, hnext⟩ :=
      next_of_step hstep (hne x List.mem_cons_self) (start x.id) (stop x.id)
    have hcons : entries (x :: xs) start stop = o :: entries xs start stop := by
      simp [entries, ho]
    rw [hcons]
    exact ⟨_, hnext, ih fun y hy => hne y (List.mem_cons_of_mem _ hy)⟩

variable {L : List (Done I (Op String String) (Reply String))} {start stop : I → ℤ}

/-- When all calls have returned, an execution that explains them has just their results. -/
theorem returned_of_mem (hL : Linearizes (versionedMap String String) H L)
    (done : ∀ c op, Event.invoke c op ∈ H → ∃ r, Event.ret c r ∈ H)
    {x : Done I (Op String String) (Reply String)} (hx : x ∈ L) : Event.ret x.id x.res ∈ H := by
  obtain ⟨r, hr⟩ := done _ _ (hL.invoked x hx)
  obtain ⟨op, hop⟩ := hL.complete _ r hr
  have hsame := List.inj_on_of_nodup_map hL.nodup hop hx rfl
  rw [← hsame]
  exact hr

theorem entries_perm [DecidableEq I] (hL : Linearizes (versionedMap String String) H L) (honce : Once H)
    (done : ∀ c op, Event.invoke c op ∈ H → ∃ r, Event.ret c r ∈ H) :
    (entries L start stop).Perm (opLog H start stop) := by
  have hresults : (L.map fun x => (x.id, x.res)).Perm (returns H) := by
    refine (List.perm_ext_iff_of_nodup (.of_map Prod.fst ?_) (.of_map _ honce.returned)).mpr ?_
    · rw [List.map_map]
      exact hL.nodup
    · rintro ⟨c, r⟩
      rw [mem_returns, List.mem_map]
      constructor
      · rintro ⟨x, hx, heq⟩
        cases heq
        exact returned_of_mem hL done hx
      · intro hr
        obtain ⟨op, hop⟩ := hL.complete c r hr
        exact ⟨_, hop, rfl⟩
  refine .trans (.of_eq ?_) (hresults.filterMap _)
  rw [List.filterMap_map]
  refine List.filterMap_congr ?_
  intro x hx
  have hop := lookup_of_nodup honce.invoked (mem_invokes.mpr (hL.invoked x hx))
  simp [hop]

theorem entries_inTime (hL : Linearizes (versionedMap String String) H L)
    (done : ∀ c op, Event.invoke c op ∈ H → ∃ r, Event.ret c r ∈ H) (htimed : Timed H start stop) :
    InTime Operation.call Operation.ret (entries L start stop) := by
  have hpairs : L.Pairwise fun x y => ¬ stop y.id < start x.id := by
    refine hL.order.imp_of_mem ?_
    intro x y hx hy hxy hlt
    exact hxy (htimed.2 y.id x.id ⟨_, returned_of_mem hL done hy⟩ ⟨_, hL.invoked x hx⟩ hlt)
  refine hpairs.filterMap _ ?_
  intro x y hxy o ho o' ho'
  rw [(logCall_times ho).1, (logCall_times ho').2]
  exact hxy

theorem next_errNoKey (s : KvState) (key value : String) (version : ℕ) (start stop : ℤ) :
    kvModel.next s (logPut key value version .errNoKey start stop) = none := by
  simp only [Model.next, kvModel, logPut]
  split_ifs <;> simp_all

/-- The log of a linearizable store is legal, unless a `Put` was answered with `ErrNoKey`. -/
theorem partsLegal_opLog [DecidableEq I] (hlin : Linearizable (versionedMap String String) H)
    (honce : Once H)
    (done : ∀ c op, Event.invoke c op ∈ H → ∃ r, Event.ret c r ∈ H) (htimed : Timed H start stop) :
    kvModel.PartsLegal (opLog H start stop) ↔ ∀ c, Event.ret c (.put .errNoKey) ∉ H := by
  obtain ⟨L, hL⟩ := hlin
  obtain ⟨kv, hlegal⟩ := hL.legal
  have hperm : (entries L start stop).Perm (opLog H start stop) := entries_perm hL honce done
  constructor
  · intro hlegal' c hret
    obtain ⟨op, hop⟩ := hL.complete c _ hret
    obtain ⟨_, _, hstep⟩ := hlegal.step_of_mem hop
    cases op with
    | get key => exact hstep
    | put key value version =>
      have hmem : logPut key value version .errNoKey (start c) (stop c) ∈ opLog H start stop :=
        hperm.mem_iff.mp (List.mem_filterMap.mpr ⟨_, hop, rfl⟩)
      obtain ⟨L', hL', _, hacc⟩ := hlegal' _ (mem_partition.mpr
        ⟨key, List.mem_map.mpr ⟨_, hmem, rfl⟩, rfl⟩)
      have hin := hL'.mem_iff.mpr (List.mem_filter.mpr ⟨hmem, decide_eq_true rfl⟩)
      obtain ⟨s, v, hnext⟩ := hacc.step_of_mem hin
      rw [next_errNoKey] at hnext
      cases hnext
  · intro hne
    have span : ∀ o ∈ opLog H start stop, o.call ≤ o.ret := by
      intro o ho
      obtain ⟨x, _, hlog⟩ := List.mem_filterMap.mp ho
      obtain ⟨op, _, hlog⟩ := Option.bind_eq_some_iff.mp hlog
      rw [(logCall_times hlog).1, (logCall_times hlog).2]
      exact htimed.1 x.1
    rw [partsLegal_iff, ← legal_whole_iff _ span]
    refine ⟨entries L start stop, hperm, entries_inTime hL done htimed,
      accepts_entries hlegal ?_ start stop⟩
    intro x hx heq
    have hret := returned_of_mem hL done hx
    rw [heq] at hret
    exact hne x.id hret

end accepted

section runs
variable {I Ck B : Type} [DecidableEq I] [DecidableEq Ck] (start stop : I → ℤ)

def AllReturned (H : List (Event I (Op String String) (Reply String))) : Prop :=
  ∀ c op, Event.invoke c op ∈ H → ∃ r, Event.ret c r ∈ H

theorem kvsrv_log_legal {tr : List (Transition (KvSrv.World I String String)
      (KvSrv.Label I String String))} {w : KvSrv.World I String String}
    (run : Run (KvSrv.kvsrv I String String) tr w) (done : AllReturned (KvSrv.history tr))
    (htimed : Timed (KvSrv.history tr) start stop) :
    kvModel.PartsLegal (opLog (KvSrv.history tr) start stop) ↔
      ∀ c, Event.ret c (.put .errNoKey) ∉ KvSrv.history tr := by
  obtain ⟨_, a, hcalls, hs⟩ := KvSrv.simulates run
  have : Nonempty (Reply String) := ⟨.put .ok⟩
  have hlin := Retries.linearizable kv_lawful hcalls
  have honce := Retries.once kv_lawful hcalls
  rw [hs.history] at hlin honce
  exact partsLegal_opLog hlin honce done htimed

theorem kvraft_log_legal {n : ℕ} {clerk : I → Ck} {snapshot : Store String String → B}
    {restore : B → Store String String} {maxraftstate : ℤ}
    {tr : List (Transition (KvStack.World n I Ck String String B) (KvStack.Label n I String String))}
    {w : KvStack.World n I Ck String String B}
    (round : ∀ kv, FiniteMap kv → restore (snapshot kv) = kv)
    (run : Run ((KvStack.kvStack clerk (KvStack.kvMachine snapshot restore) maxraftstate n).guarded
      KvStack.Fresh) tr w)
    (done : AllReturned (KvStack.history tr)) (htimed : Timed (KvStack.history tr) start stop) :
    kvModel.PartsLegal (opLog (KvStack.history tr) start stop) ↔
      ∀ c, Event.ret c (.put .errNoKey) ∉ KvStack.history tr := by
  obtain ⟨tr', b, hrun, hhist⟩ := KvStack.refines round run
  obtain ⟨_, a, hcalls, hs⟩ := KvRaft.simulates hrun
  have : Nonempty (Reply String) := ⟨.put .ok⟩
  have hlin := Retries.linearizable kv_lawful hcalls
  have honce := Retries.once kv_lawful hcalls
  rw [hs.history, hhist] at hlin honce
  exact partsLegal_opLog hlin honce done htimed

end runs

/-- A `Put` of a later version of a key that does not exist. -/
theorem kvsrv_log_legal_noKey : ∃ r, replay KvSrv.exec
      (⟨fun _ => none, fun _ => .idle⟩ : KvSrv.World ℕ String String) []
      [.invoke 0 (.put "x" "a" 3), .send 0, .handle 0, .answer 0] = some r ∧
    KvSrv.history r.1 = [.invoke 0 (.put "x" "a" 3), .ret 0 (.put .errNoKey)] ∧
    ¬ kvModel.PartsLegal (opLog (KvSrv.history r.1) (fun _ => 0) fun _ => 1) := by
  have hsome : (replay KvSrv.exec
      (⟨fun _ => none, fun _ => .idle⟩ : KvSrv.World ℕ String String) []
      [.invoke 0 (.put "x" "a" 3), .send 0, .handle 0, .answer 0]).map (fun r => KvSrv.history r.1) =
      some [.invoke 0 (.put "x" "a" 3), .ret 0 (.put .errNoKey)] := by decide +kernel
  obtain ⟨r, hr, hh⟩ := Option.map_eq_some_iff.mp hsome
  have hiff := kvsrv_log_legal (fun _ => 0) (fun _ => 1)
    (Run.replay (fun _ _ _ h => h) _ (.start rfl) hr) (by rw [hh]; simp [AllReturned])
    (by simp [Timed])
  refine ⟨r, hr, hh, fun hlegal' => hiff.mp hlegal' 0 ?_⟩
  rw [hh]
  simp

theorem kvraft_log_legal_resent : ∃ r, replay
      (KvStack.execFresh (fun _ : ℕ => ()) (KvStack.kvMachine id id) 10)
      (KvStack.initial (KvStack.kvMachine id id)) []
      (KvStack.resentCall (0 : Fin 2) 1 (.put "x" "a" 0)) = some r ∧
    KvStack.history r.1 = [.invoke 0 (.put "x" "a" 0), .ret 0 (.put .errMaybe)] ∧
    kvModel.PartsLegal (opLog (KvStack.history r.1) (fun _ => 0) fun _ => 1) := by
  have hsome : (replay
      (KvStack.execFresh (fun _ : ℕ => ()) (KvStack.kvMachine id id) 10)
      (KvStack.initial (KvStack.kvMachine id id)) []
      (KvStack.resentCall (0 : Fin 2) 1 (.put "x" "a" 0))).map (fun r => KvStack.history r.1) =
      some [.invoke 0 (.put "x" "a" 0), .ret 0 (.put .errMaybe)] := by decide +kernel
  obtain ⟨r, hr, hh⟩ := Option.map_eq_some_iff.mp hsome
  have hiff := kvraft_log_legal (fun _ => 0) (fun _ => 1) (fun _ _ => rfl)
    (Run.replay (fun _ _ _ h => KvStack.execFresh_step h) _ (.start rfl) hr)
    (by rw [hh]; simp [AllReturned]) (by simp [Timed])
  refine ⟨r, hr, hh, hiff.mpr ?_⟩
  rw [hh]
  simp

end DistributedLabs.Porcupine
