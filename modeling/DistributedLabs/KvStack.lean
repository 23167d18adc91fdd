import DistributedLabs.KvRaft
import DistributedLabs.RsmCommits

set_option autoImplicit false

/-!
# The replicated store on Raft

The clerks of `kvraft1/client.go`, the handlers `Get` and `Put` of `kvraft1/server.go`, and
below each handler the RSM and the Raft peer of its server. Nothing is assumed of the log.
An RPC can fail at any time; it is handled at most once, and no more once `Call` has
returned, but what its handler has submitted by then stays submitted.
-/
namespace DistributedLabs.KvStack
open KvServer KvCalls Linearizability Runs RsmStack RsmCommits
open RsmModel (StateMachine Submission OpResult Command)
open KvRaft (errOf wrongLeaderReply Entry)

variable {n : ℕ} {I Ck K V B : Type}

def kvMachine [DecidableEq K] (snapshot : Store K V → B) (restore : B → Store K V) :
    StateMachine (Op K V) (Reply V) B (Store K V) where
  initial := fun _ => none
  doOp kv req := ((doOp kv req).2, (doOp kv req).1)
  snapshot := snapshot
  restore := restore

/-- The handler of an RPC: not started, turned away by `Submit` at once, or in the `Submit`
    call with number `k`. -/
inductive Handler where
  | arriving
  | refused
  | waiting (k : ℕ)
deriving DecidableEq

inductive Call (n : ℕ) (K V : Type) where
  | idle
  | ready (op : Op K V) (resent : Bool)
  | calling (op : Op K V) (resent : Bool) (server : Fin n) (handler : Handler)
  | returned (op : Op K V) (result : Reply V)

structure World (n : ℕ) (I Ck K V B : Type) where
  servers : Stack n (Op K V) (Reply V) B (Store K V)
  -- the field of each clerk, an index into `ck.servers`
  leader : Ck → ℕ
  calls : I → Call n K V

inductive Label (n : ℕ) (I K V : Type) where
  /-- A step of the servers other than `Submit`. -/
  | server (l : RsmStack.Label n (Op K V))
  | invoke (c : I) (op : Op K V)
  | send (c : I)
  /-- The handler runs up to the loop of `Submit`. -/
  | handle (c : I)
  /-- `Call` returns false. -/
  | fail (c : I)
  /-- The reply of the handler reaches the clerk. -/
  | reply (c : I)

def background {R : Type} : RsmStack.Label n R → Bool
  | .submit _ _ | .startForeign _ => false
  | _ => true

def handlerReply (op : Op K V) (res : OpResult (Reply V)) : Reply V :=
  match res.err with
  | .errWrongLeader => wrongLeaderReply op
  | .ok =>
    match op, res.val with
    | .get _, some (.get entry err) => .get entry err
    | .put _ _ _, some (.put err) => .put err
    | _, _ => wrongLeaderReply op

def replyOf {R : Type} (op : Op K V) (calls : List (Submission n R (Reply V))) :
    Handler → Option (Reply V)
  | .arriving => none
  | .refused => some (wrongLeaderReply op)
  | .waiting k => (calls[k]?).bind fun s => s.returned.map (handlerReply op)

section machine
variable [DecidableEq I] [DecidableEq Ck]

def World.set (w : World n I Ck K V B) (c : I) (call : Call n K V) : World n I Ck K V B :=
  { w with calls := Function.update w.calls c call }

def World.advance (w : World n I Ck K V B) (ck : Ck) (failed : Fin n) : World n I Ck K V B :=
  if w.leader ck = failed then
    { w with leader := Function.update w.leader ck ((failed + 1) % n) }
  else w

def World.retry (w : World n I Ck K V B) (ck : Ck) (c : I) (op : Op K V) (failed : Fin n) :
    World n I Ck K V B :=
  (w.set c (.ready op true)).advance ck failed

variable (clerk : I → Ck) (machine : StateMachine (Op K V) (Reply V) B (Store K V))
  (maxraftstate : ℤ)

def exec (w : World n I Ck K V B) : Label n I K V → Option (World n I Ck K V B)
  | .server l =>
    if background l then do
      let servers ← w.servers.exec machine maxraftstate l
      some { w with servers := servers }
    else none
  | .invoke c op =>
    match w.calls c with
    | .idle => some (w.set c (.ready op false))
    | _ => none
  | .send c =>
    match w.calls c with
    | .ready op resent =>
      if h : w.leader (clerk c) < n then
        some (w.set c (.calling op resent ⟨w.leader (clerk c), h⟩ .arriving))
      else none
    | _ => none
  | .handle c =>
    match w.calls c with
    | .calling op resent p .arriving => do
      let servers ← w.servers.exec machine maxraftstate (.submit p op)
      let handler := if w.servers.calls.length < servers.calls.length then
        .waiting w.servers.calls.length else .refused
      some { w.set c (.calling op resent p handler) with servers := servers }
    | _ => none
  | .fail c =>
    match w.calls c with
    | .calling op _ p _ => some (w.retry (clerk c) c op p)
    | _ => none
  | .reply c =>
    match w.calls c with
    | .calling op resent p handler => do
      let reply ← replyOf op w.servers.calls handler
      if errOf reply = .errWrongLeader then some (w.retry (clerk c) c op p)
      else some (w.set c (.returned op (clerkResult resent reply)))
    | _ => none

def initial : World n I Ck K V B := ⟨RsmStack.initial machine, fun _ => 0, fun _ => .idle⟩

def kvStack (n : ℕ) : Machine (World n I Ck K V B) (Label n I K V) where
  init w := w = initial machine
  step w l v := exec clerk machine maxraftstate w l = some v

end machine

def submits (w : World n I Ck K V B) : Label n I K V → Option (RsmStack.Label n (Op K V))
  | .handle c =>
    match w.calls c with
    | .calling op _ p .arriving => some (.submit p op)
    | _ => none
  | _ => none

/-- No restarted server is given an index again for an id it used for it before. -/
def Fresh (w : World n I Ck K V B) (l : Label n I K V) : Prop :=
  ∀ s ∈ submits w l, RsmRefinement.Fresh w.servers s

instance (w : World n I Ck K V B) (l : Label n I K V) : Decidable (Fresh w l) :=
  inferInstanceAs (Decidable (∀ s ∈ submits w l, RsmRefinement.Fresh w.servers s))

def visible (t : Transition (World n I Ck K V B) (Label n I K V)) :
    Option (Event I (Op K V) (Reply V)) :=
  match t.label with
  | .invoke c op => some (.invoke c op)
  | .reply c =>
    match t.post.calls c with
    | .returned _ result => some (.ret c result)
    | _ => none
  | _ => none

def history (tr : List (Transition (World n I Ck K V B) (Label n I K V))) :
    List (Event I (Op K V) (Reply V)) :=
  (tr.filterMap visible).reverse

theorem history_cons (t : Transition (World n I Ck K V B) (Label n I K V))
    (tr : List (Transition (World n I Ck K V B) (Label n I K V))) :
    history (t :: tr) = history tr ++ (visible t).toList := by
  unfold history
  rw [List.filterMap_cons]
  cases visible t <;> simp

section moves
variable [DecidableEq I] [DecidableEq Ck]

theorem retry_calls (w : World n I Ck K V B) (ck : Ck) (c : I) (op : Op K V) (failed : Fin n) :
    (w.retry ck c op failed).calls = Function.update w.calls c (.ready op true) := by
  unfold World.retry World.advance
  split_ifs <;> rfl

theorem retry_servers (w : World n I Ck K V B) (ck : Ck) (c : I) (op : Op K V) (failed : Fin n) :
    (w.retry ck c op failed).servers = w.servers := by
  unfold World.retry World.advance
  split_ifs <;> rfl

variable {clerk : I → Ck} {machine : StateMachine (Op K V) (Reply V) B (Store K V)}
  {maxraftstate : ℤ}

inductive Moves (clerk : I → Ck) (machine : StateMachine (Op K V) (Reply V) B (Store K V))
    (maxraftstate : ℤ) (w : World n I Ck K V B) : Label n I K V → World n I Ck K V B → Prop where
  | server (l : RsmStack.Label n (Op K V)) (servers : Stack n (Op K V) (Reply V) B (Store K V))
      (hl : background l = true) (h : w.servers.exec machine maxraftstate l = some servers) :
      Moves clerk machine maxraftstate w (.server l) { w with servers := servers }
  | invoke (c : I) (op : Op K V) (hc : w.calls c = .idle) :
      Moves clerk machine maxraftstate w (.invoke c op) (w.set c (.ready op false))
  | send (c : I) (op : Op K V) (resent : Bool) (p : Fin n) (hc : w.calls c = .ready op resent) :
      Moves clerk machine maxraftstate w (.send c) (w.set c (.calling op resent p .arriving))
  | submit (c : I) (op : Op K V) (resent : Bool) (p : Fin n)
      (servers : Stack n (Op K V) (Reply V) B (Store K V))
      (hc : w.calls c = .calling op resent p .arriving)
      (h : w.servers.exec machine maxraftstate (.submit p op) = some servers)
      (hlt : w.servers.calls.length < servers.calls.length) :
      Moves clerk machine maxraftstate w (.handle c)
        { w.set c (.calling op resent p (.waiting w.servers.calls.length)) with
          servers := servers }
  | refuse (c : I) (op : Op K V) (resent : Bool) (p : Fin n)
      (servers : Stack n (Op K V) (Reply V) B (Store K V))
      (hc : w.calls c = .calling op resent p .arriving)
      (h : w.servers.exec machine maxraftstate (.submit p op) = some servers)
      (hge : ¬ w.servers.calls.length < servers.calls.length) :
      Moves clerk machine maxraftstate w (.handle c)
        { w.set c (.calling op resent p .refused) with servers := servers }
  | retry (l : Label n I K V) (c : I) (op : Op K V) (resent : Bool) (p : Fin n) (handler : Handler)
      (hc : w.calls c = .calling op resent p handler)
      (hvis : visible ⟨w, l, w.retry (clerk c) c op p⟩ = none) :
      Moves clerk machine maxraftstate w l (w.retry (clerk c) c op p)
  | answer (c : I) (op : Op K V) (resent : Bool) (p : Fin n) (handler : Handler) (reply : Reply V)
      (hc : w.calls c = .calling op resent p handler)
      (hr : replyOf op w.servers.calls handler = some reply)
      (hne : errOf reply ≠ .errWrongLeader) :
      Moves clerk machine maxraftstate w (.reply c)
        (w.set c (.returned op (clerkResult resent reply)))

theorem exec_moves {w u : World n I Ck K V B} {l : Label n I K V}
    (h : exec clerk machine maxraftstate w l = some u) : Moves clerk machine maxraftstate w l u := by
  cases l with
  | server l =>
    dsimp only [exec] at h
    split_ifs at h with hl
    obtain ⟨servers, hs, h⟩ := Option.bind_eq_some_iff.mp h
    cases h
    exact .server l servers hl hs
  | invoke c op =>
    dsimp only [exec] at h
    split at h
    · cases h
      exact .invoke c op ‹_›
    · cases h
  | send c =>
    dsimp only [exec] at h
    split at h
    · split_ifs at h
      cases h
      exact .send c _ _ _ ‹_›
    · cases h
  | handle c =>
    dsimp only [exec] at h
    split at h
    · obtain ⟨servers, hs, h⟩ := Option.bind_eq_some_iff.mp h
      split_ifs at h with hlt
      · cases h
        exact .submit c _ _ _ servers ‹_› hs hlt
      · cases h
        exact .refuse c _ _ _ servers ‹_› hs hlt
    · cases h
  | fail c =>
    dsimp only [exec] at h
    split at h
    · cases h
      exact .retry _ c _ _ _ _ ‹_› rfl
    · cases h
  | reply c =>
    dsimp only [exec] at h
    split at h
    · obtain ⟨reply, hr, h⟩ := Option.bind_eq_some_iff.mp h
      split_ifs at h with herr
      · cases h
        exact .retry _ c _ _ _ _ ‹_› (by simp [visible, retry_calls])
      · cases h
        exact .answer c _ _ _ _ reply ‹_› hr herr
    · cases h

end moves

section entries
variable {tickets tickets' : List (Ticket n (Op K V))} {owners owners' : List (I × ℕ)}
  {cs : List (Command n (Op K V))} {es : List (Entry I K V)} {k : ℕ} {t : Ticket n (Op K V)}
  {c : I} {m : ℕ}

/-- The commands of the log as entries of the clerks: `owners` has the call and the attempt of
    each `Submit` call. -/
inductive Logs (tickets : List (Ticket n (Op K V))) (owners : List (I × ℕ)) :
    List (Command n (Op K V)) → List (Entry I K V) → Prop where
  | nil : Logs tickets owners [] []
  | foreign {cs : List (Command n (Op K V))} {es : List (Entry I K V)}
      (h : Logs tickets owners cs es) : Logs tickets owners (cs ++ [.foreign]) es
  | op {cs : List (Command n (Op K V))} {es : List (Entry I K V)} {k : ℕ} {t : Ticket n (Op K V)}
      {c : I} {m : ℕ} (h : Logs tickets owners cs es) (hk : tickets[k]? = some t)
      (hindex : t.index = cs.length + 1) (howner : owners[k]? = some (c, m)) :
      Logs tickets owners (cs ++ [.op t.op]) (⟨c, m, t.op.req⟩ :: es)

theorem Logs.mono (h : Logs tickets owners cs es) (ht : tickets <+: tickets')
    (ho : owners <+: owners') : Logs tickets' owners' cs es := by
  induction h with
  | nil => exact .nil
  | foreign _ ih => exact .foreign ih
  | op _ hk hindex howner ih =>
    exact .op ih (RaftProvenance.getElem?_initial ht hk) hindex
      (RaftProvenance.getElem?_initial ho howner)

theorem Logs.source (h : Logs tickets owners cs es) {e : Entry I K V} (he : e ∈ es) :
    ∃ (k : ℕ) (t : Ticket n (Op K V)), tickets[k]? = some t ∧ Landed cs t ∧
      owners[k]? = some (e.call, e.attempt) := by
  induction h with
  | nil => cases he
  | foreign _ ih =>
    obtain ⟨k, t, hk, hl, ho⟩ := ih he
    exact ⟨k, t, hk, hl.append _, ho⟩
  | @op cs _ k t _ _ _ hk hindex howner ih =>
    rcases List.mem_cons.mp he with rfl | he
    · refine ⟨k, t, hk, ⟨by omega, ?_⟩, howner⟩
      rw [hindex, Nat.add_sub_cancel, List.getElem?_concat_length]
    · obtain ⟨k, t, hk, hl, ho⟩ := ih he
      exact ⟨k, t, hk, hl.append _, ho⟩

variable [DecidableEq K] {snapshot : Store K V → B} {restore : B → Store K V}

theorem Logs.state (h : Logs tickets owners cs es) :
    KvRaft.kvAt es = fold (kvMachine snapshot restore) cs := by
  induction h with
  | nil => rfl
  | foreign _ ih =>
    rw [fold_snoc, ih]
    rfl
  | op _ _ _ _ ih =>
    rw [fold_snoc, KvRaft.kvAt, ih]
    rfl

variable [DecidableEq I]

theorem Logs.replyAt (h : Logs tickets owners cs es) (hk : tickets[k]? = some t)
    (honce : ∀ (j : ℕ) (t' : Ticket n (Op K V)), tickets[j]? = some t' → t'.index = t.index →
      t'.op = t.op → j = k)
    (ho : owners[k]? = some (c, m)) (hown : ∀ j, owners[j]? = some (c, m) → j = k)
    (hl : Landed cs t) : KvRaft.replyAt c m es =
      some (doOp (fold (kvMachine snapshot restore) (cs.take (t.index - 1))) t.op.req).2 := by
  induction h with
  | nil =>
    have hle := hl.le
    have hpos := hl.1
    rw [List.length_nil] at hle
    omega
  | foreign _ ih =>
    rcases hl.of_append with hl | ⟨_, hc⟩
    · rw [List.take_append_of_le_length (by have := hl.le; omega)]
      exact ih hl
    · cases hc
  | @op cs _ j t' c' m' hlogs hj hindex howner ih =>
    rcases hl.of_append with hl | ⟨hidx, hop⟩
    · have hle := hl.le
      have hother : ¬ (c' = c ∧ m' = m) := by
        rintro ⟨rfl, rfl⟩
        rw [hown j howner, hk] at hj
        cases hj
        omega
      rw [KvRaft.replyAt, if_neg hother, List.take_append_of_le_length (by omega)]
      exact ih hl
    · obtain rfl := honce j t' hj (by omega) (Command.op.inj hop)
      rw [ho] at howner
      cases howner
      have hstate : KvRaft.kvAt _ = fold (kvMachine snapshot restore) cs := hlogs.state
      rw [KvRaft.replyAt, if_pos ⟨rfl, rfl⟩, hstate, hidx, Nat.add_sub_cancel, List.take_left,
        Command.op.inj hop]

end entries

section tied
variable {tickets tickets' : List (Ticket n (Op K V))} {owners : List (I × ℕ)}
  {cs : List (Command n (Op K V))} {calls : I → Call n K V} {a : KvRaft.World I K V} {c : I}

/-- A call on the servers and the same call on one log. `sent` counts its RPCs; those that
    `Submit` accepted are in `owners`. -/
inductive CallTied (owners : List (I × ℕ)) (c : I) : Call n K V → KvRaft.Call K V → Prop where
  | idle : CallTied owners c .idle .idle
  | ready (op : Op K V) (resent : Bool) (sent : ℕ) :
      CallTied owners c (.ready op resent) (.running op resent sent false)
  | arriving (op : Op K V) (resent : Bool) (p : Fin n) (sent : ℕ) (hpos : 1 ≤ sent)
      (h : ∀ m, (c, m) ∈ owners → m < sent) :
      CallTied owners c (.calling op resent p .arriving) (.running op resent sent true)
  | refused (op : Op K V) (resent : Bool) (p : Fin n) (sent : ℕ) :
      CallTied owners c (.calling op resent p .refused) (.running op resent sent true)
  | waiting (op : Op K V) (resent : Bool) (p : Fin n) (sent k : ℕ)
      (h : owners[k]? = some (c, sent)) :
      CallTied owners c (.calling op resent p (.waiting k)) (.running op resent sent true)
  | returned (op : Op K V) (sent : ℕ) (result : Reply V) :
      CallTied owners c (.returned op result) (.returned op sent result)

theorem CallTied.calling {op : Op K V} {resent : Bool} {p : Fin n} {handler : Handler}
    {y : KvRaft.Call K V} (h : CallTied owners c (.calling op resent p handler) y) :
    ∃ sent, y = .running op resent sent true := by
  cases h <;> exact ⟨_, rfl⟩

theorem CallTied.other {d : I} (hd : c ≠ d) {m : ℕ} {x : Call n K V} {y : KvRaft.Call K V}
    (h : CallTied owners c x y) : CallTied (owners ++ [(d, m)]) c x y := by
  cases h with
  | idle => exact .idle
  | ready => exact .ready _ _ _
  | arriving op resent p sent hpos h =>
    refine .arriving _ _ _ _ hpos ?_
    intro j hj
    simp only [List.mem_append, List.mem_singleton, Prod.mk.injEq, hd, false_and, or_false] at hj
    exact h j hj
  | refused => exact .refused _ _ _ _
  | waiting op resent p sent k h =>
    exact .waiting _ _ _ _ _ (RaftProvenance.getElem?_initial (List.prefix_append _ _) h)
  | returned => exact .returned _ _ _

/-- The servers with their clerks and the clerks over one log are in the same state. -/
structure Tied (tickets : List (Ticket n (Op K V))) (calls : I → Call n K V)
    (cs : List (Command n (Op K V))) (owners : List (I × ℕ)) (a : KvRaft.World I K V) : Prop where
  length : owners.length = tickets.length
  each : ∀ (k : ℕ) c m (t : Ticket n (Op K V)), owners[k]? = some (c, m) → tickets[k]? = some t →
    1 ≤ m ∧ ∃ sent, (a.calls c).attempts = some (t.op.req, sent) ∧ m ≤ sent
  ascending : owners.Pairwise fun x y => x.1 = y.1 → x.2 < y.2
  log : Logs tickets owners cs a.log
  calls : ∀ c, CallTied owners c (calls c) (a.calls c)

theorem tied_initial : Tied ([] : List (Ticket n (Op K V))) (fun _ => .idle) [] []
    (⟨[], fun _ => .idle⟩ : KvRaft.World I K V) where
  length := rfl
  each k c m t hk := by cases hk
  ascending := List.Pairwise.nil
  log := .nil
  calls _ := .idle

theorem Tied.owner (h : Tied tickets calls cs owners a) {k : ℕ} {t : Ticket n (Op K V)}
    (hk : tickets[k]? = some t) : ∃ c m, owners[k]? = some (c, m) := by
  have hlt := (List.getElem?_eq_some_iff.mp hk).choose
  rw [← h.length] at hlt
  exact ⟨owners[k].1, owners[k].2, List.getElem?_eq_getElem hlt⟩

theorem Tied.later (h : Tied tickets calls cs owners a) {j k m m' : ℕ}
    (hj : owners[j]? = some (c, m)) (hk : owners[k]? = some (c, m')) (hlt : j < k) : m < m' := by
  obtain ⟨hbj, hej⟩ := List.getElem?_eq_some_iff.mp hj
  obtain ⟨hbk, hek⟩ := List.getElem?_eq_some_iff.mp hk
  have := List.pairwise_iff_getElem.mp h.ascending j k hbj hbk hlt
  rw [hej, hek] at this
  exact this rfl

theorem Tied.owner_unique (h : Tied tickets calls cs owners a) {j k m : ℕ}
    (hj : owners[j]? = some (c, m)) (hk : owners[k]? = some (c, m)) : j = k := by
  rcases Nat.lt_trichotomy j k with hlt | heq | hgt
  · exact absurd (h.later hj hk hlt) (Nat.lt_irrefl m)
  · exact heq
  · exact absurd (h.later hk hj hgt) (Nat.lt_irrefl m)

theorem Tied.sent_le (h : Tied tickets calls cs owners a) {op : Op K V} {sent m : ℕ}
    (ha : (a.calls c).attempts = some (op, sent)) (hm : (c, m) ∈ owners) : m ≤ sent := by
  obtain ⟨k, hk⟩ := List.mem_iff_getElem?.mp hm
  have hlt := (List.getElem?_eq_some_iff.mp hk).choose
  rw [h.length] at hlt
  obtain ⟨_, sent', hs, hle⟩ := h.each k c m tickets[k] hk (List.getElem?_eq_getElem hlt)
  rw [ha] at hs
  cases hs
  exact hle

theorem Tied.foreign (h : Tied tickets calls cs owners a) :
    Tied tickets calls (cs ++ [.foreign]) owners a :=
  { h with log := .foreign h.log }

variable [DecidableEq I]

theorem Tied.move (h : Tied tickets calls cs owners a) {x : Call n K V} {y : KvRaft.Call K V}
    (hxy : CallTied owners c x y)
    (hkeep : ∀ op sent, (a.calls c).attempts = some (op, sent) →
      ∃ sent', y.attempts = some (op, sent') ∧ sent ≤ sent') :
    Tied tickets (Function.update calls c x) cs owners (a.set c y) where
  length := h.length
  each k d m t hk ht := by
    obtain ⟨hpos, sent, hsent, hle⟩ := h.each k d m t hk ht
    refine ⟨hpos, ?_⟩
    by_cases hd : d = c
    · subst hd
      obtain ⟨sent', hs', hle'⟩ := hkeep _ _ hsent
      exact ⟨sent', by simpa [KvRaft.World.set] using hs', by omega⟩
    · exact ⟨sent, by simpa [KvRaft.World.set, hd] using hsent, hle⟩
  ascending := h.ascending
  log := h.log
  calls d := by
    by_cases hd : d = c
    · subst hd
      simpa [KvRaft.World.set] using hxy
    · simpa [KvRaft.World.set, hd] using h.calls d

theorem Tied.submit (h : Tied tickets calls cs owners a) {op : Op K V} {resent : Bool} {p : Fin n}
    (hc : calls c = .calling op resent p .arriving) {t : Ticket n (Op K V)} (ht : t.op.req = op) :
    ∃ owners', Tied (tickets ++ [t])
      (Function.update calls c (.calling op resent p (.waiting tickets.length))) cs owners' a := by
  have hcall := h.calls c
  rw [hc] at hcall
  generalize hac : a.calls c = y at hcall
  cases hcall with
  | arriving _ _ _ sent hpos hlt =>
    refine ⟨owners ++ [(c, sent)], ?_, ?_, ?_, ?_, ?_⟩
    · simp [h.length]
    · intro k d m t' hk ht'
      rcases getElem?_snoc ht' with ht' | ⟨rfl, rfl⟩
      · have hb := (List.getElem?_eq_some_iff.mp ht').choose
        rw [List.getElem?_append_left (by rw [h.length]; exact hb)] at hk
        exact h.each k d m t' hk ht'
      · rw [← h.length, List.getElem?_concat_length] at hk
        cases hk
        exact ⟨hpos, sent, by rw [hac, ht]; rfl, Nat.le_refl _⟩
    · rw [List.pairwise_append]
      refine ⟨h.ascending, List.pairwise_singleton _ _, ?_⟩
      rintro ⟨d, m⟩ hd y hy rfl
      rw [List.mem_singleton.mp hy] at hd ⊢
      exact hlt m hd
    · exact h.log.mono (List.prefix_append _ _) (List.prefix_append _ _)
    · intro d
      by_cases hd : d = c
      · subst hd
        rw [Function.update_self, hac]
        exact .waiting _ _ _ _ _ (by rw [← h.length, List.getElem?_concat_length])
      · rw [Function.update_of_ne hd]
        exact (h.calls d).other hd

theorem Tied.commit [DecidableEq K] (h : Tied tickets calls cs owners a) {k m : ℕ}
    {t : Ticket n (Op K V)}
    (hk : tickets[k]? = some t) (hindex : t.index = cs.length + 1) (ho : owners[k]? = some (c, m))
    (hfirst : ∀ (j : ℕ) (t' : Ticket n (Op K V)), tickets[j]? = some t' → Landed cs t' → j < k) :
    ∃ b, KvRaft.exec a (.commit c m) = some b ∧ Tied tickets calls (cs ++ [.op t.op]) owners b := by
  obtain ⟨hpos, sent, hsent, hle⟩ := h.each k c m t ho hk
  have hnew : ∀ e ∈ a.log, e.call = c → e.attempt < m := by
    rintro e he rfl
    obtain ⟨j, t', hj, hl, howner⟩ := h.log.source he
    exact h.later howner ho (hfirst j t' hj hl)
  refine ⟨{ a with log := ⟨c, m, t.op.req⟩ :: a.log }, ?_, ?_⟩
  · simp only [KvRaft.exec, hsent]
    rw [if_pos ⟨hpos, hle, hnew⟩]
  · exact { h with log := .op h.log hk hindex ho }

end tied

section servers
variable {R V B St : Type} {machine : StateMachine R V B St} {w u : Stack n R V B St}

theorem background_tickets {l : RsmStack.Label n R} (hl : background l = true)
    (h : Stepped machine w l u) : u.calls.map ticket = w.calls.map ticket := by
  cases h with
  | submitDead | refused | submitted | startForeign => cases hl
  | receive k c res hk hch hepoch hret => exact tickets_set hk rfl
  | timeout k c hk hepoch hret rsm c' h => exact tickets_set hk (ticket_timeout h)
  | read p raft rsm calls hraft h => exact (fed_read h).tickets
  | finish p rsm calls h => exact (fed_finish h).tickets
  | stop p rsm calls h => exact (fed_stop h).tickets
  | raft | send | skipSnapshot | snapshot | restart => rfl

theorem submit_calls {p : Fin n} {req : R} (h : Stepped machine w (.submit p req) u) :
    u.calls = w.calls ∨ ∃ s, u.calls = w.calls ++ [s] ∧ s.op.req = req := by
  cases h with
  | submitDead | refused => exact .inl rfl
  | submitted => exact .inr ⟨_, rfl, rfl⟩

end servers

theorem handlerReply_ok {op : Op K V} {res : OpResult (Reply V)}
    (h : errOf (handlerReply op res) ≠ .errWrongLeader) : res = ⟨some (handlerReply op res), .ok⟩ := by
  obtain ⟨val, err⟩ := res
  cases err with
  | errWrongLeader => cases op <;> exact absurd rfl h
  | ok =>
    cases op <;> rcases val with _ | (_ | _)
    all_goals first | rfl | exact absurd rfl h

theorem replyOf_ok {R : Type} {op : Op K V} {calls : List (Submission n R (Reply V))}
    {handler : Handler} {reply : Reply V} (h : replyOf op calls handler = some reply)
    (hne : errOf reply ≠ .errWrongLeader) :
    ∃ (k : ℕ) (s : Submission n R (Reply V)), handler = .waiting k ∧ calls[k]? = some s ∧
      s.returned = some ⟨some reply, .ok⟩ := by
  cases handler with
  | arriving => cases h
  | refused =>
    cases h
    cases op <;> exact absurd rfl hne
  | waiting k =>
    obtain ⟨s, hs, h⟩ := Option.bind_eq_some_iff.mp h
    obtain ⟨res, hres, rfl⟩ := Option.map_eq_some_iff.mp h
    exact ⟨k, s, rfl, hs, by rw [hres, ← handlerReply_ok hne]⟩

section simulation
variable [DecidableEq I] [DecidableEq K] [DecidableEq V] {clerk : I → Ck}
  {snapshot : Store K V → B} {restore : B → Store K V} {maxraftstate : ℤ}
  {w u : World n I Ck K V B} {l : Label n I K V} {a : KvRaft.World I K V}
  {tr : List (Transition (World n I Ck K V B) (Label n I K V))}

def Joint (machine : StateMachine (Op K V) (Reply V) B (Store K V)) (maxraftstate : ℤ)
    (w : World n I Ck K V B) (a : KvRaft.World I K V) : Prop :=
  ∃ cs owners, Standing machine maxraftstate w.servers cs ∧
    Tied (w.servers.calls.map ticket) w.calls cs owners a

/-- The clerks over one log take a step or none, and show what the step shows. -/
def Follows (a b : KvRaft.World I K V) (e : Option (Event I (Op K V) (Reply V))) : Prop :=
  (a = b ∧ e = none) ∨ ∃ l, KvRaft.exec a l = some b ∧ KvRaft.visible ⟨a, l, b⟩ = e

omit [DecidableEq V] in
/-- The store never has more than finitely many keys. -/
theorem restores_of_finite (round : ∀ kv, FiniteMap kv → restore (snapshot kv) = kv) :
    Restores (kvMachine snapshot restore) := by
  have finite : ∀ kv, Occurs (kvMachine snapshot restore) kv → FiniteMap kv := by
    intro kv h
    induction h with
    | initial => exact ⟨[], fun _ hne => absurd rfl hne⟩
    | doOp req _ ih =>
      cases req with
      | get key => exact ih
      | put key value version => exact ih.put key value version
  exact fun kv h => round kv (finite kv h)

theorem joint_server {machine : StateMachine (Op K V) (Reply V) B (Store K V)}
    (round : Restores machine)
    (hj : Joint machine maxraftstate w a) {l : RsmStack.Label n (Op K V)}
    (hl : background l = true) {servers : Stack n (Op K V) (Reply V) B (Store K V)}
    (h : Stepped machine w.servers l servers) :
    ∃ b, Follows a b none ∧ Joint machine maxraftstate { w with servers := servers } b := by
  obtain ⟨cs, owners, hw, ht⟩ := hj
  have hfresh : RsmRefinement.Fresh w.servers l := by
    cases l <;> trivial
  have htickets := background_tickets hl h
  rw [← htickets] at ht
  rcases hw.step round hfresh h with hu | ⟨p, command, _, hcalls, hu⟩
  · exact ⟨a, .inl ⟨rfl, rfl⟩, cs, owners, hu, ht⟩
  · cases command with
    | foreign => exact ⟨a, .inl ⟨rfl, rfl⟩, _, owners, hu, ht.foreign⟩
    | op o =>
      obtain ⟨k, s, hk, hindex, rfl⟩ := hu.owner List.getElem?_concat_length
      have hkt : (servers.calls.map ticket)[k]? = some (ticket s) := by
        rw [List.getElem?_map, hk]
        rfl
      obtain ⟨c, m, ho⟩ := ht.owner hkt
      have hlast : Landed (cs ++ [.op s.op]) (ticket s) := by
        refine ⟨Nat.lt_of_lt_of_eq (Nat.succ_pos _) hindex.symm, ?_⟩
        rw [show (ticket s).index = _ from hindex, Nat.add_sub_cancel, List.getElem?_concat_length]
        rfl
      -- what has landed before was submitted before
      have hfirst : ∀ (j : ℕ) (t : Ticket n (Op K V)),
          (servers.calls.map ticket)[j]? = some t → Landed cs t → j < k := by
        intro j t hj hl
        rw [List.getElem?_map, Option.map_eq_some_iff] at hj
        obtain ⟨s', hs', rfl⟩ := hj
        have hle : s'.index ≤ cs.length := hl.le
        rcases Nat.lt_trichotomy j k with hlt | rfl | hgt
        · exact hlt
        · rw [hk] at hs'
          cases hs'
          omega
        · have := hu.in_order hk hs' hlast (hl.append _) hgt
          omega
      obtain ⟨b, hb, ht'⟩ := ht.commit hkt hindex ho hfirst
      exact ⟨b, .inr ⟨_, hb, rfl⟩, _, owners, hu, ht'⟩

variable [DecidableEq Ck]

theorem joint_step (round : Restores (kvMachine snapshot restore))
    (hj : Joint (kvMachine snapshot restore) maxraftstate w a) (hfresh : Fresh w l)
    (h : Moves clerk (kvMachine snapshot restore) maxraftstate w l u) :
    ∃ b, Follows a b (visible ⟨w, l, u⟩) ∧ Joint (kvMachine snapshot restore) maxraftstate u b := by
  cases h with
  | server l servers hl h => exact joint_server round hj hl (exec_spec h)
  | invoke c op hc =>
    obtain ⟨cs, owners, hw, ht⟩ := hj
    have hcall := ht.calls c
    rw [hc] at hcall
    generalize hac : a.calls c = y at hcall
    cases hcall
    refine ⟨a.set c (.running op false 0 false), .inr ⟨.invoke c op, ?_, rfl⟩, cs, owners, hw,
      ht.move (.ready op false 0) ?_⟩
    · simp [KvRaft.exec, hac]
    · simp [hac, KvRaft.Call.attempts]
  | send c op resent p hc =>
    obtain ⟨cs, owners, hw, ht⟩ := hj
    have hcall := ht.calls c
    rw [hc] at hcall
    generalize hac : a.calls c = y at hcall
    cases hcall with
    | ready _ _ sent =>
      have hattempts : (a.calls c).attempts = some (op, sent) := by rw [hac]; rfl
      refine ⟨a.set c (.running op resent (sent + 1) true), .inr ⟨.send c, ?_, rfl⟩, cs, owners, hw,
        ht.move (.arriving op resent p (sent + 1) (by omega) ?_) ?_⟩
      · simp [KvRaft.exec, hac]
      · intro m hm
        have := ht.sent_le hattempts hm
        omega
      · intro op' sent' hs
        rw [hattempts] at hs
        cases hs
        exact ⟨sent + 1, rfl, Nat.le_succ _⟩
  | submit c op resent p servers hc h hlt =>
    obtain ⟨cs, owners, hw, ht⟩ := hj
    have hsubmit := hfresh (.submit p op) (by simp [submits, hc])
    rcases hw.step round hsubmit (exec_spec h) with hu | ⟨_, _, hl, _⟩
    · rcases submit_calls (exec_spec h) with hsame | ⟨s, hnew, hreq⟩
      · rw [hsame] at hlt
        omega
      · obtain ⟨owners', ht'⟩ := ht.submit hc (t := ticket s) hreq
        rw [List.length_map, ← List.map_singleton, ← List.map_append, ← hnew] at ht'
        exact ⟨a, .inl ⟨rfl, rfl⟩, cs, owners', hu, ht'⟩
    · cases hl
  | refuse c op resent p servers hc h hge =>
    obtain ⟨cs, owners, hw, ht⟩ := hj
    have hsubmit := hfresh (.submit p op) (by simp [submits, hc])
    rcases hw.step round hsubmit (exec_spec h) with hu | ⟨_, _, hl, _⟩
    · rcases submit_calls (exec_spec h) with hsame | ⟨s, hnew, _⟩
      · have hcall := ht.calls c
        rw [hc] at hcall
        obtain ⟨sent, hac⟩ := hcall.calling
        have hmove := ht.move (c := c) (x := .calling op resent p .refused) (y := a.calls c)
          (by rw [hac]; exact .refused _ _ _ _) (fun _ sent hs => ⟨sent, hs, Nat.le_refl _⟩)
        have hset : a.set c (a.calls c) = a := by simp [KvRaft.World.set]
        rw [hset, ← hsame] at hmove
        exact ⟨a, .inl ⟨rfl, rfl⟩, cs, owners, hu, hmove⟩
      · rw [hnew, List.length_append, List.length_singleton] at hge
        omega
    · cases hl
  | retry l c op resent p handler hc hvis =>
    obtain ⟨cs, owners, hw, ht⟩ := hj
    have hcall := ht.calls c
    rw [hc] at hcall
    obtain ⟨sent, hac⟩ := hcall.calling
    rw [hvis]
    refine ⟨a.set c (KvRaft.retry op sent), .inr ⟨.fail c, ?_, rfl⟩, cs, owners, ?_, ?_⟩
    · simp [KvRaft.exec, hac]
    · rw [retry_servers]
      exact hw
    · rw [retry_servers, retry_calls]
      refine ht.move (.ready op true sent) ?_
      intro op' sent' hs
      rw [hac] at hs
      exact ⟨sent', hs, Nat.le_refl _⟩
  | answer c op resent p handler reply hc hr hne =>
    obtain ⟨cs, owners, hw, ht⟩ := hj
    obtain ⟨k, s, rfl, hk, hret⟩ := replyOf_ok hr hne
    have hcall := ht.calls c
    rw [hc] at hcall
    generalize hac : a.calls c = y at hcall
    cases hcall with
    | waiting _ _ _ sent _ ho =>
      obtain ⟨hl, hv⟩ := hw.returned hk hret
      have hkt : (w.servers.calls.map ticket)[k]? = some (ticket s) := by
        rw [List.getElem?_map, hk]
        rfl
      have honce : ∀ (j : ℕ) (t : Ticket n (Op K V)), (w.servers.calls.map ticket)[j]? = some t →
          t.index = (ticket s).index → t.op = (ticket s).op → j = k := by
        intro j t hj hindex hop
        rw [List.getElem?_map, Option.map_eq_some_iff] at hj
        obtain ⟨s', hs', rfl⟩ := hj
        exact hw.unique hs' hk hindex hop
      -- no other call has the same `Op` and index, so the reply is that of this attempt's entry
      have hreply : KvRaft.replyAt c sent a.log = some reply := by
        rw [hv]
        exact ht.log.replyAt hkt honce ho (fun j hj => ht.owner_unique hj ho) hl
      refine ⟨a.set c (.returned op sent (clerkResult resent reply)), .inr ⟨.answer c, ?_, ?_⟩, cs,
        owners, hw, ht.move (.returned op sent _) ?_⟩
      · simp [KvRaft.exec, hac, hreply, KvRaft.afterReply, hne]
      · simp [KvRaft.visible, KvRaft.World.set, visible, World.set]
      · intro op' sent' hs
        rw [hac] at hs
        exact ⟨sent', hs, Nat.le_refl _⟩

/-- Every run of the clerks and servers looks to the clients like a run over one log. -/
theorem refines (round : ∀ kv, FiniteMap kv → restore (snapshot kv) = kv)
    (run : Run ((kvStack clerk (kvMachine snapshot restore) maxraftstate n).guarded Fresh) tr w) :
    ∃ tr' a, Run (KvRaft.kvraft I K V) tr' a ∧ KvRaft.history tr' = history tr := by
  have restores := restores_of_finite round
  have joint : ∃ tr' a, Run (KvRaft.kvraft I K V) tr' a ∧ KvRaft.history tr' = history tr ∧
      Joint (kvMachine snapshot restore) maxraftstate w a := by
    refine run.history (I := fun tr w => ∃ tr' a, Run (KvRaft.kvraft I K V) tr' a ∧
      KvRaft.history tr' = history tr ∧ Joint (kvMachine snapshot restore) maxraftstate w a) ?_ ?_
    · rintro _ rfl
      exact ⟨[], ⟨[], fun _ => .idle⟩, .start rfl, rfl, [], [], standing_initial restores,
        tied_initial⟩
    · rintro tr w l u - ⟨tr', a, hrun, hhist, hj⟩ ⟨h, hfresh⟩
      obtain ⟨b, hf, hj'⟩ := joint_step restores hj hfresh (exec_moves h)
      rw [history_cons, ← hhist]
      rcases hf with ⟨rfl, hvis⟩ | ⟨l', hl', hvis⟩
      · exact ⟨tr', a, hrun, by simp [hvis], hj'⟩
      · exact ⟨_, b, hrun.next hl', by rw [KvRaft.history_cons, hvis], hj'⟩
  obtain ⟨tr', a, hrun, hhist, _⟩ := joint
  exact ⟨tr', a, hrun, hhist⟩

/-- What the clients of the store on Raft see is what they could see of one versioned map. -/
theorem store_linearizable (round : ∀ kv, FiniteMap kv → restore (snapshot kv) = kv)
    (run : Run ((kvStack clerk (kvMachine snapshot restore) maxraftstate n).guarded Fresh) tr w) :
    Linearizable (versionedMap K V) (history tr) := by
  obtain ⟨tr', a, hrun, hhist⟩ := refines round run
  obtain ⟨_, b, hcalls, hs⟩ := KvRaft.simulates hrun
  rw [← hhist, ← hs.history]
  have : Nonempty (Reply V) := ⟨.put .ok⟩
  exact Retries.linearizable kv_lawful hcalls

end simulation

section sample
variable [DecidableEq I] [DecidableEq Ck]

def execFresh (clerk : I → Ck) (machine : StateMachine (Op K V) (Reply V) B (Store K V))
    (maxraftstate : ℤ) (w : World n I Ck K V B) (l : Label n I K V) : Option (World n I Ck K V B) :=
  if Fresh w l then exec clerk machine maxraftstate w l else none

theorem execFresh_step {clerk : I → Ck} {machine : StateMachine (Op K V) (Reply V) B (Store K V)}
    {maxraftstate : ℤ} {w u : World n I Ck K V B} {l : Label n I K V}
    (h : execFresh clerk machine maxraftstate w l = some u) :
    ((kvStack clerk machine maxraftstate n).guarded Fresh).step w l u := by
  unfold execFresh at h
  split_ifs at h with hfresh
  exact ⟨h, hfresh⟩

end sample

def commitRound (p q : Fin n) (k : ℕ) : List (Label n ℕ K V) :=
  [.server (.raft (.replicateOnce p q)), .server (.raft (.handle 0)), .server (.raft (.reply 0)),
    .server (.raft (.applier p)), .server (.send p), .server (.read p), .server (.finish p),
    .server (.maybeSnapshot p 10), .server (.receive k)]

/-- The reply to a call is lost, the clerk asks the other server in vain and then the first one
    again, which has applied the operation and compacted its log. -/
def resentCall (p q : Fin n) (op : Op K V) : List (Label n ℕ K V) :=
  List.flatten [[.server (.raft (.tick p)), .server (.raft (.startElection p)),
      .server (.raft (.sendRequestVote p 1 q)), .server (.raft (.handle 0)),
      .server (.raft (.reply 0)), .invoke 0 op, .send 0, .handle 0], commitRound p q 0,
    [.fail 0, .send 0, .handle 0, .reply 0, .send 0, .handle 0], commitRound p q 1, [.reply 0]]

theorem store_linearizable_resent : ∃ r, replay (execFresh (fun _ : ℕ => ()) (kvMachine id id) 10)
      (initial (kvMachine id id)) [] (resentCall (0 : Fin 2) 1 (.put 5 70 0)) = some r ∧
    history r.1 = [.invoke 0 (.put 5 70 0), .ret 0 (.put .errMaybe)] ∧
    Linearizable (versionedMap ℕ ℕ) (history r.1) := by
  have hsome : (replay (execFresh (fun _ : ℕ => ()) (kvMachine id id) 10)
      (initial (kvMachine id id)) [] (resentCall (0 : Fin 2) 1 (.put 5 70 0))).map
        (fun r => history r.1) =
      some [.invoke 0 (.put 5 70 0), .ret 0 (.put .errMaybe)] := by decide +kernel
  obtain ⟨r, hr, hh⟩ := Option.map_eq_some_iff.mp hsome
  exact ⟨r, hr, hh, store_linearizable (fun _ _ => rfl)
    (Run.replay (fun _ _ _ h => execFresh_step h) _ (.start rfl) hr)⟩

end DistributedLabs.KvStack
