import DistributedLabs.RaftNextIndex

set_option autoImplicit false

/-!
# When a refusal undoes confirmed progress

Several `replicateOnce` calls to one peer can be in flight at once, and a peer may compact
its log beyond the next probe. So a peer that has confirmed entries to a leader can still
refuse one of its messages. The leader drops a refusal whose probe lies below `nextIndex`
and takes every other. Once the peer has confirmed something, `nextIndex` stands at most
one behind it, and a refusal that is taken always moves `nextIndex` onto a confirmed entry;
only the leader's own boundary can stop it.
-/
namespace DistributedLabs.RaftProgress
open RaftModel RaftCluster RaftHistory RaftBounds RaftNextIndex Runs
open RaftSafety (adder first second)

variable {n : ℕ} {C S : Type} {sm : StateMachine C S} {s : Cluster n C S}
  {tr : List (Transition (Cluster n C S) (Label n C))}

def InOrder (rf : Raft n C S) (p : Fin n) : Prop :=
  rf.matchIndex p < rf.nextIndex p ∧ rf.nextIndex p ≤ rf.lastLogIndex + 1

instance (rf : Raft n C S) (p : Fin n) : Decidable (InOrder rf p) :=
  inferInstanceAs (Decidable (_ ∧ _))

def Progress (tr : List (Transition (Cluster n C S) (Label n C))) (s : Cluster n C S) : Prop :=
  ∀ x, Visits tr s x → ∀ L p, p ≠ L → (x.procs L).rf.state = .leader → InOrder (x.procs L).rf p

/-- In the step a leader takes a refusal from a peer that has already confirmed an entry to it,
    not below the leader's own boundary. -/
inductive Undoes (t : Transition (Cluster n C S) (Label n C)) : Prop where
  | intro (k epoch : ℕ) (L p : Fin n) (args : AppendEntriesArgs n C) (reply : AppendEntriesReply)
      (hint : ℕ) (label : t.label = .reply k)
      (call : t.pre.rpcs[k]? = some ⟨L, epoch, p, .appendEntries args (some reply)⟩)
      (refused : Refused (t.pre.procs L).rf p args reply hint)
      (confirmed : 0 < (t.pre.procs L).rf.matchIndex p)
      (kept : (t.pre.procs L).rf.lastIncludedIndex ≤ (t.pre.procs L).rf.matchIndex p) : Undoes t

section notes
variable {rf rf' : Raft n C S} {L p q : Fin n} {rpcs rpcs' : List (Rpc n C S)}

/-- `nextIndex` is not beyond the entry after `k`, unless the boundary has moved it there. -/
def Near (rf : Raft n C S) (q : Fin n) (k : ℕ) : Prop :=
  rf.nextIndex q ≤ max (k + 1) (max rf.lastIncludedIndex 1)

def covers : Call n C S → Option (ℕ × ℕ)
  | .requestVote _ _ => none
  | .appendEntries args _ => some (args.term, args.prevLogIndex)
  | .installSnapshot args _ => some (args.term, args.lastIncludedIndex)

/-- What the leader `L` has noted is near what is confirmed, or near what the next confirmation
    will bring. -/
structure Confined (rpcs : List (Rpc n C S)) (L : Fin n) (rf : Raft n C S) : Prop where
  noted : ∀ q, q ≠ L → 0 < rf.matchIndex q → Near rf q (rf.matchIndex q)
  called : ∀ r ∈ rpcs, r.caller = L → r.target ≠ L → ∀ k,
    covers r.call = some (rf.currentTerm, k) → rf.matchIndex r.target = 0 → Near rf r.target k

structure Steady (L : Fin n) (rf rf' : Raft n C S) : Prop where
  leads : rf.state = .leader
  term : rf'.currentTerm = rf.currentTerm
  base : rf.lastIncludedIndex ≤ rf'.lastIncludedIndex
  known : ∀ q, q ≠ L → rf'.matchIndex q = rf.matchIndex q
  next : ∀ q, q ≠ L → rf'.nextIndex q ≤ max (rf.nextIndex q) (max rf.lastIncludedIndex 1)

theorem steady_refl (h : rf.state = .leader) : Steady L rf rf :=
  ⟨h, rfl, le_refl _, fun _ _ => rfl, fun _ _ => le_max_left _ _⟩

theorem Confined.steady (h : Confined rpcs L rf) (hs : Steady L rf rf') : Confined rpcs L rf' := by
  have near : ∀ q k, q ≠ L → Near rf q k → Near rf' q k := by
    intro q k hq hn
    have hnext := hs.next q hq
    have hbase := hs.base
    unfold Near at hn ⊢
    omega
  constructor
  · intro q hq hpos
    rw [hs.known q hq] at hpos ⊢
    exact near q _ hq (h.noted q hq hpos)
  · intro r hr hcaller htarget k hk hzero
    rw [hs.known _ htarget] at hzero
    rw [hs.term] at hk
    exact near _ k htarget (h.called r hr hcaller htarget k hk hzero)

theorem Confined.confirmed (h : Confined rpcs L rf) {j k : ℕ} (hjk : j ≤ k)
    (hj : rf.matchIndex p = 0 → Near rf p j) (hp : p ≠ L) :
    Confined rpcs L (RaftNextIndex.confirmed rf p k) := by
  have hmatch : ∀ q, (RaftNextIndex.confirmed rf p k).matchIndex q =
      if q = p then max (rf.matchIndex q) k else rf.matchIndex q := raise_apply rf.matchIndex p k
  have hnext : ∀ q, (RaftNextIndex.confirmed rf p k).nextIndex q =
      if q = p then max (rf.nextIndex q) (k + 1) else rf.nextIndex q :=
    raise_apply rf.nextIndex p (k + 1)
  constructor
  · intro q hq hpos
    have hnoted := h.noted q hq
    unfold Near at hj hnoted ⊢
    rw [hmatch] at hpos ⊢
    rw [hnext]
    change _ ≤ max _ (max rf.lastIncludedIndex 1)
    by_cases hqp : q = p
    · subst hqp
      simp only [if_true] at hpos ⊢
      rcases Nat.eq_zero_or_pos (rf.matchIndex q) with hzero | hsome
      · have := hj hzero
        omega
      · have := hnoted hsome
        omega
    · simp only [hqp, if_false] at hpos ⊢
      exact hnoted hpos
  · intro r hr hcaller htarget i hi hzero
    rw [hmatch] at hzero
    unfold Near
    rw [hnext]
    change _ ≤ max _ (max rf.lastIncludedIndex 1)
    have hcalled := h.called r hr hcaller htarget i hi
    unfold Near at hcalled
    split_ifs at hzero ⊢
    · have := hcalled (by omega)
      omega
    · exact hcalled hzero

def Repeats (rpcs rpcs' : List (Rpc n C S)) : Prop :=
  ∀ r ∈ rpcs', covers r.call = none ∨ ∃ r' ∈ rpcs, r'.caller = r.caller ∧ r'.target = r.target ∧
    covers r'.call = covers r.call

theorem repeats_of_subset (h : rpcs' ⊆ rpcs) : Repeats rpcs rpcs' :=
  fun r hr => .inr ⟨r, h hr, rfl, rfl, rfl⟩

theorem Confined.repeated (h : Confined rpcs L rf) (hr : Repeats rpcs rpcs') :
    Confined rpcs' L rf := by
  refine ⟨h.noted, fun r hmem hcaller htarget k hk hzero => ?_⟩
  rcases hr r hmem with hnone | ⟨r', hmem', hcaller', htarget', hcovers⟩
  · rw [hnone] at hk
    cases hk
  · rw [← htarget'] at htarget hzero ⊢
    exact h.called r' hmem' (hcaller'.trans hcaller) htarget k (hcovers.trans hk) hzero

def requested : Replication n C S → Call n C S
  | .append args => .appendEntries args none
  | .snapshot args => .installSnapshot args none

/-- A request starts at most where `nextIndex` stands. -/
theorem replicateOnce_from {msg : Replication n C S} (h : rf.replicateOnce q = some (some msg))
    {t k : ℕ} (hk : covers (requested msg) = some (t, k)) : rf.nextIndex q ≤ k + 1 := by
  unfold Raft.replicateOnce at h
  dsimp only at h
  split_ifs at h with _ hlow
  · cases h
  · cases h
    cases hk
    exact Nat.le_succ_of_le hlow
  · cases h
  · obtain ⟨entries, _, h⟩ := Option.bind_eq_some_iff.mp h
    obtain ⟨prev, _, h⟩ := Option.bind_eq_some_iff.mp h
    cases h
    cases hk
    dsimp only
    omega

theorem handle_repeats {s u : Cluster n C S} {k : ℕ} (h : s.handle k = some u) :
    Repeats s.rpcs u.rpcs := by
  have answered : ∀ r call, s.rpcs[k]? = some r → covers call = covers r.call →
      Repeats s.rpcs (s.rpcs.set k { r with call := call }) := by
    intro r call hk hcall r' hr'
    rcases List.mem_or_eq_of_mem_set hr' with hr' | rfl
    · exact .inr ⟨r', hr', rfl, rfl, rfl⟩
    · exact .inr ⟨r, List.mem_of_getElem? hk, rfl, rfl, hcall.symm⟩
  obtain ⟨⟨caller, epoch, target, call⟩, hk, h⟩ := Option.bind_eq_some_iff.mp h
  rcases call with ⟨args, _ | reply⟩ | ⟨args, _ | reply⟩ | ⟨args, _ | reply⟩
  case requestVote.some | appendEntries.some | installSnapshot.some => cases h
  all_goals
    obtain ⟨⟨rf', reply⟩, _, h⟩ := Option.bind_eq_some_iff.mp h
    cases h
    exact answered _ _ hk rfl

theorem steady_handled {call : Call n C S} (hh : Handled rf rf' call) (hs : rf'.state = .leader) :
    Steady L rf rf' := by
  have observed : ∀ t, (rf.observeTerm t).state = .leader → rf.observeTerm t = rf := by
    intro t ht
    unfold Raft.observeTerm at ht ⊢
    split_ifs at ht ⊢
    · cases ht
    · rfl
  cases hh with
  | requestVote args reply hv =>
    rcases requestVote_cases hv with ⟨_, rfl⟩ | ⟨_, _, _, _, rfl⟩
    · have hrf := observed _ hs
      rw [hrf] at hs ⊢
      exact steady_refl hs
    · have hrf := observed args.term hs
      rw [hrf] at hs ⊢
      exact ⟨hs, rfl, le_refl _, fun _ _ => rfl, fun _ _ => le_max_left _ _⟩
  | appendEntries args reply ha =>
    by_cases hle : rf.currentTerm ≤ args.term
    · rw [(appendEntries_frame ha hle).1] at hs
      cases hs
    · rcases appendEntries_cases ha with ⟨_, rfl, _⟩ | ⟨hterm, _⟩ | ⟨hterm, _⟩
      · exact steady_refl hs
      · exact absurd hterm hle
      · exact absurd hterm hle
  | installSnapshot args reply hi =>
    rcases installSnapshot_cases hi with ⟨_, rfl⟩ | ⟨_, _, rfl⟩ | ⟨_, _, newLog, _, rfl⟩
    · exact steady_refl hs
    · rw [follow_state] at hs
      cases hs
    · rw [(install_frame _ _ _).2.1, follow_state] at hs
      cases hs

theorem steady_advance (hs : rf'.state = .leader) (ha : rf.advanceCommitIndex = some rf') :
    Steady L rf rf' := by
  rcases advanceCommitIndex_cases ha with rfl | ⟨N, e, _, _, _, _, _, _, rfl⟩
  · exact steady_refl hs
  · exact ⟨hs, rfl, le_refl _, fun _ _ => rfl, fun _ _ => le_max_left _ _⟩

theorem steady_refused {args : AppendEntriesArgs n C} {reply : AppendEntriesReply} {hint : ℕ}
    (h : Refused rf p args reply hint) : Steady L rf
      { rf with nextIndex := Function.update rf.nextIndex p (backedUp rf p hint) } := by
  refine ⟨h.leads, rfl, le_refl _, fun _ _ => rfl, fun q _ => ?_⟩
  by_cases hq : q = p
  · subst hq
    simp only [Function.update_self, backedUp]
    omega
  · simp only [Function.update_of_ne hq]
    exact le_max_left _ _

theorem steady_start (hpos : 0 < rf.log.length) (command : Option C) (hme : rf.me = L)
    (hs : (rf.start command).1.state = .leader) : Steady L rf (rf.start command).1 := by
  by_cases hlead : rf.state = .leader
  · rw [start_leader hlead hpos]
    refine ⟨hlead, rfl, le_refl _, fun q hq => ?_, fun q hq => ?_⟩
    · exact Function.update_of_ne (hme ▸ hq) _ _
    · simp only [Raft.persist, Function.update_of_ne (hme ▸ hq)]
      exact le_max_left _ _
  · rw [start_follower hlead] at hs ⊢
    exact absurd hs hlead

theorem steady_takeSnapshot {i : ℕ} {st : S} (hs : rf'.state = .leader)
    (ht : rf.takeSnapshot i st = some rf') : Steady L rf rf' := by
  rcases takeSnapshot_cases ht with rfl | ⟨hlo, _, e, newLog, _, _, rfl⟩
  · exact steady_refl hs
  · exact ⟨hs, rfl, hlo.le, fun _ _ => rfl, fun _ _ => le_max_left _ _⟩

theorem steady_applier {msg : ApplyMsg C S} (hs : rf'.state = .leader)
    (ha : rf.applier = some (rf', msg)) : Steady L rf rf' := by
  rcases applier_cases ha with ⟨_, rfl, _⟩ | ⟨_, rfl, _⟩
  · exact ⟨hs, rfl, le_refl _, fun _ _ => rfl, fun _ _ => le_max_left _ _⟩
  · exact ⟨hs, rfl, le_refl _, fun _ _ => rfl, fun _ _ => le_max_left _ _⟩

end notes

section runs
variable {u : Cluster n C S} {g : History n C}

def AllConfined (s : Cluster n C S) : Prop :=
  ∀ L, (s.procs L).rf.state = .leader → Confined s.rpcs L (s.procs L).rf

theorem AllConfined.setProc (hc : AllConfined s) {p : Fin n} {y : Proc n C S}
    {rpcs : List (Rpc n C S)} (hr : Repeats s.rpcs rpcs)
    (hy : y.rf.state = .leader → Confined s.rpcs p y.rf) {d : List (Delivery n C S)} :
    AllConfined ⟨Function.update s.procs p y, rpcs, d⟩ := by
  intro L hlead
  dsimp only at hlead ⊢
  by_cases hL : L = p
  · subst hL
    rw [Function.update_self] at hlead ⊢
    exact (hy hlead).repeated hr
  · rw [Function.update_of_ne hL] at hlead ⊢
    exact (hc L hlead).repeated hr

theorem AllConfined.steady (hc : AllConfined s) {p : Fin n} {y : Proc n C S}
    {rpcs : List (Rpc n C S)} (hr : Repeats s.rpcs rpcs)
    (hy : y.rf.state = .leader → Steady p (s.procs p).rf y.rf) {d : List (Delivery n C S)} :
    AllConfined ⟨Function.update s.procs p y, rpcs, d⟩ :=
  hc.setProc hr fun hlead => (hc p (hy hlead).leads).steady (hy hlead)

theorem AllConfined.send (hc : AllConfined s) {p peer : Fin n} {epoch : ℕ} {call : Call n C S}
    (hr : ∀ t k, covers call = some (t, k) → (s.procs p).rf.nextIndex peer ≤ k + 1) :
    AllConfined { s with rpcs := ⟨p, epoch, peer, call⟩ :: s.rpcs } := by
  intro L hlead
  refine ⟨(hc L hlead).noted, fun r hmem hcaller htarget k hk hzero => ?_⟩
  rcases List.mem_cons.mp hmem with rfl | hmem
  · subst hcaller
    exact (hr _ k hk).trans (le_max_left _ _)
  · exact (hc L hlead).called r hmem hcaller htarget k hk hzero

/-- A candidate has never sent a replication request of its term. -/
theorem confined_elected (hi : Inv sm s g) {L : Fin n} {t : ℕ}
    (hcand : (s.procs L).rf.state = .candidate) (ht : (s.procs L).rf.currentTerm = t) :
    Confined s.rpcs L ((s.procs L).rf.becomeLeader t) := by
  have hraft := (hi.procs L).raft
  unfold Raft.becomeLeader
  rw [if_neg (by simp [hcand, ht])]
  constructor
  · intro q hq hpos
    simp only [hraft.me, hq, if_false, Nat.lt_irrefl] at hpos
  · intro r hr hcaller _ k hk _
    -- the history would know the peer as the leader of the term
    have hcall := (hi.rpcs r hr).2
    unfold CallInv at hcall
    have led : ∀ target ld, FromLeader g (s.procs L).rf.currentTerm r.caller target ld → False :=
      fun target ld hf => hraft.led ld hf.lead (hf.who.trans hcaller) hcand
    generalize r.call = call at hk hcall
    cases call with
    | requestVote => cases hk
    | appendEntries args reply =>
      obtain ⟨hterm, -⟩ := Prod.mk.inj (Option.some.inj hk)
      obtain ⟨ld, hf, _⟩ := hcall
      exact (led _ ld (hterm ▸ hf)).elim
    | installSnapshot args reply =>
      obtain ⟨hterm, -⟩ := Prod.mk.inj (Option.some.inj hk)
      obtain ⟨ld, hf, _⟩ := hcall
      exact (led _ ld (hterm ▸ hf)).elim

theorem confined_replied (hi : Inv sm s g) (hc : AllConfined s) {r : Rpc n C S} (hr : r ∈ s.rpcs)
    {y : Proc n C S} (h : Replied (s.procs r.caller) r.target y r.call)
    (hlead : y.rf.state = .leader) : Confined s.rpcs r.caller y.rf := by
  have hcall := (hi.rpcs r hr).2
  have hnear := fun hs => (hc r.caller hs).called r hr rfl
  unfold CallInv at hcall
  generalize r.call = call at h hcall hnear
  cases h with
  | requestVote args reply rf votes h hy =>
    subst hy
    have hlead : rf.state = .leader := hlead
    change Confined s.rpcs r.caller rf
    rcases voteReply_cases h with ⟨_, rfl⟩ | ⟨rfl, _⟩ | ⟨hterm, hcand, _, _, rfl | ⟨_, rfl⟩⟩
    · cases hlead
    · exact hc r.caller hlead
    · exact hc r.caller hlead
    · exact confined_elected hi hcand hterm
  | appendEntries args reply rf h hy =>
    subst hy
    have hlead : rf.state = .leader := hlead
    change Confined s.rpcs r.caller rf
    obtain ⟨ld, hf, _⟩ := hcall
    rcases appendReply_cases h with ⟨rfl, _⟩ | rfl | ⟨_, rfl | ⟨hint, hrefused, rfl⟩⟩ |
      ⟨hs, hcur, _, hadv⟩
    · exact hc r.caller hlead
    · cases hlead
    · exact hc r.caller hlead
    · exact (hc r.caller hrefused.leads).steady (steady_refused hrefused)
    · refine Confined.steady ?_ (steady_advance hlead hadv)
      exact (hc r.caller hs).confirmed (Nat.le_add_right _ _)
        (hnear hs hf.other.symm _ (by rw [hcur]; rfl)) hf.other.symm
  | installSnapshot args reply hy =>
    subst hy
    change Confined s.rpcs r.caller ((s.procs r.caller).rf.snapshotReply r.target args reply)
    have hlead : ((s.procs r.caller).rf.snapshotReply r.target args reply).state = .leader := hlead
    obtain ⟨ld, hf, _⟩ := hcall
    rcases snapshotReply_cases (s.procs r.caller).rf r.target args reply with
      heq | heq | ⟨hs, hcur, heq⟩
    · rw [heq] at hlead ⊢
      exact hc r.caller hlead
    · rw [heq] at hlead
      cases hlead
    · rw [heq]
      exact (hc r.caller hs).confirmed (le_refl _)
        (hnear hs hf.other.symm _ (by rw [hcur]; rfl)) hf.other.symm

theorem confined_step (hi : Inv sm s g) (hc : AllConfined s) {l : Label n C}
    (h : s.exec sm l = some u) : AllConfined u := by
  have same := repeats_of_subset (List.Subset.refl s.rpcs)
  have erased : ∀ k, Repeats s.rpcs (s.rpcs.eraseIdx k) :=
    fun k => repeats_of_subset (List.eraseIdx_subset)
  cases exec_spec h with
  | tick p =>
    refine hc.steady same ?_
    exact steady_refl
  | startElection p => exact hc.steady same fun hlead => by cases hlead
  | skipVote p term peer =>
    refine hc.steady same ?_
    exact steady_refl
  | sendVote p term peer poll args =>
    refine hc.steady (fun r hr => ?_) ?_
    · rcases List.mem_cons.mp hr with rfl | hr
      · exact .inl rfl
      · exact same r hr
    · exact steady_refl
  | skipReplicate p peer => exact hc
  | sendAppend p peer args hsend => exact hc.send fun _ _ => replicateOnce_from hsend
  | sendSnapshot p peer args hsend => exact hc.send fun _ _ => replicateOnce_from hsend
  | handle k r call rf hk hh => exact hc.steady (handle_repeats h) (steady_handled hh)
  | reply k r y hk hr =>
    exact hc.setProc (erased k) (confined_replied hi hc (List.mem_of_getElem? hk) hr)
  | lose k => exact fun L hlead => (hc L hlead).repeated (erased k)
  | start p command =>
    have hraft := (hi.procs p).raft
    exact hc.steady same (steady_start (RaftInv.inBounds hraft).length_pos command hraft.me)
  | snapshot p k i st rf ht => exact hc.steady same fun hlead => steady_takeSnapshot hlead ht
  | applier p rf msg free ready ha => exact hc.steady same fun hlead => steady_applier hlead ha
  | send p =>
    refine hc.steady same ?_
    exact steady_refl
  | receive p =>
    refine hc.steady same ?_
    exact steady_refl
  | restart p =>
    refine hc.steady same fun hlead => ?_
    change (Raft.make p (s.procs p).rf.persister).state = .leader at hlead
    rw [(make_frame p (s.procs p).rf.persister).2.2.1] at hlead
    cases hlead

theorem all_confined (run : Run (cluster n sm) tr s) : AllConfined s := by
  refine run.history (I := fun _ s => AllConfined s) ?_ ?_
  · rintro s rfl
    exact nofun
  · intro tr s l u run hc h
    obtain ⟨g, hi, _⟩ := RaftSafety.visits_inv run
    exact confined_step hi hc h

end runs

theorem closed_below : Closed (fun _ next m => m < next) where
  elected last m h := by omega
  appended last next m h := h
  confirmed last next m k h hk := by omega

/-- Without a step that undoes progress, the notes of every leader stay in order. -/
theorem below_of_kept (run : Run (cluster n sm) tr s) (hk : ∀ t ∈ tr, ¬ Undoes t) (L : Fin n) :
    Tracks (fun _ next m => m < next) (s.procs L).rf := by
  refine run.history (I := fun tr s => (∀ t ∈ tr, ¬ Undoes t) →
    ∀ L, Tracks (fun _ next m => m < next) (s.procs L).rf) ?_ ?_ hk L
  · rintro s rfl _ L
    exact tracks_of_ne nofun
  · intro tr s l u run ih h hk
    obtain ⟨g, hi, _⟩ := RaftSafety.visits_inv run
    have hbelow := ih (fun t ht => hk t (List.mem_cons_of_mem _ ht))
    refine tracks_step closed_below hi hbelow ?_ h
    intro k r hl hr args reply hint hcall hrefused
    -- a refusal that does not undo anything is stopped by the boundary, or by index 1
    by_contra hle
    unfold backedUp at hle
    refine hk _ List.mem_cons_self (.intro k r.epoch r.caller r.target args reply hint hl ?_ hrefused
      (by dsimp only; omega) (by dsimp only; omega))
    rw [hr, ← hcall]

theorem Undoes.out_of_order {t : Transition (Cluster n C S) (Label n C)} (h : Undoes t)
    {past : List (Transition (Cluster n C S) (Label n C))} (run : Run (cluster n sm) past t.pre)
    (hstep : t.pre.exec sm t.label = some t.post) : ∃ L p, p ≠ L ∧
      (t.post.procs L).rf.state = .leader ∧ ¬ InOrder (t.post.procs L).rf p := by
  obtain ⟨k, epoch, L, p, args, reply, hint, label, call, refused, confirmed, kept⟩ := h
  obtain ⟨g, hi, _⟩ := RaftSafety.visits_inv run
  obtain ⟨ld, hf, _⟩ := (hi.rpcs _ (List.mem_of_getElem? call)).2
  have hne : p ≠ L := hf.other.symm
  -- `nextIndex` stands at most one behind what the peer has confirmed
  have hnear := (all_confined run L refused.leads).noted p hne confirmed
  rw [label] at hstep
  obtain ⟨r, y, hk, _, hreplied, hpost⟩ := reply_spec hstep
  rw [call] at hk
  cases hk
  refine ⟨L, p, hne, ?_⟩
  have hrf : (t.post.procs L).rf = { (t.pre.procs L).rf with
      nextIndex := Function.update (t.pre.procs L).rf.nextIndex p
        (backedUp (t.pre.procs L).rf p hint) } := by
    cases hreplied with
    | appendEntries _ _ rf ha hy =>
      rw [refused.appendReply] at ha
      cases ha
      rw [hpost, hy]
      simp [Cluster.setProc]
  constructor
  · rw [hrf]
    exact refused.leads
  · rintro ⟨hlt, _⟩
    rw [hrf] at hlt
    simp only [Function.update_self, backedUp] at hlt
    unfold Near at hnear
    omega

theorem progress_iff (run : Run (cluster n sm) tr s) : Progress tr s ↔ ∀ t ∈ tr, ¬ Undoes t := by
  constructor
  · intro hp t ht hu
    obtain ⟨⟨past, hpast⟩, hstep, _⟩ := run.visited ht
    obtain ⟨L, p, hne, hlead, hout⟩ := hu.out_of_order hpast hstep
    exact hout (hp t.post (run.visits_post ht) L p hne hlead)
  · intro hk x hx L p _ hlead
    obtain ⟨past, rest, rfl, hpast⟩ := run.past hx
    have hbelow := below_of_kept hpast (fun t ht => hk t (List.mem_append_right _ ht)) L
    exact ⟨hbelow hlead p, next_ok hpast L hlead p⟩

section samples

/-- The first peer starts a command, restarts and is elected again, so that it probes the second
    peer at index 1. Both of two probes are refused; the first refusal is processed, the entry
    is sent and confirmed, and the second refusal is still under way. -/
def twoProbes (rest : List (Label 3 ℕ)) :
    Option (List (Transition (Cluster 3 ℕ ℕ) (Label 3 ℕ)) × Cluster 3 ℕ ℕ) :=
  replay (Cluster.exec adder) (initial adder) []
    ([.tick first, .startElection first, .sendRequestVote first 1 second, .handle 0, .reply 0,
      .start first (some 7), .restart first, .tick first, .startElection first,
      .sendRequestVote first 2 second, .handle 0, .reply 0, .replicateOnce first second,
      .replicateOnce first second, .handle 0, .handle 1, .reply 0, .replicateOnce first second,
      .handle 0, .reply 0] ++ rest)

theorem twoProbes_run {rest : List (Label 3 ℕ)}
    {r : List (Transition (Cluster 3 ℕ ℕ) (Label 3 ℕ)) × Cluster 3 ℕ ℕ}
    (h : twoProbes rest = some r) : Run (cluster 3 adder) r.1 r.2 :=
  Run.replay (fun _ _ _ h => h) _ (.start rfl) h

theorem progress_lostRefusal : ∃ r, twoProbes [.lose 0] = some r ∧
    (r.2.procs 0).rf.state = .leader ∧ (r.2.procs 0).rf.matchIndex 1 = 1 ∧
    Progress r.1 r.2 ∧ ∀ t ∈ r.1, ¬ Undoes t := by
  have hsome : (twoProbes [.lose 0]).map (fun r => decide ((r.2.procs 0).rf.state = .leader ∧
      (r.2.procs 0).rf.matchIndex 1 = 1 ∧
      (∀ L p, p ≠ L → (r.2.procs L).rf.state = .leader → InOrder (r.2.procs L).rf p) ∧
      ∀ t ∈ r.1, ∀ L p, p ≠ L → (t.pre.procs L).rf.state = .leader →
        InOrder (t.pre.procs L).rf p)) = some true := by
    decide +kernel
  obtain ⟨r, hr, hd⟩ := Option.map_eq_some_iff.mp hsome
  obtain ⟨hlead, hmatch, hlast, hpast⟩ := of_decide_eq_true hd
  have hprogress : Progress r.1 r.2 := by
    rintro x (rfl | ⟨t, ht, rfl⟩)
    · exact hlast
    · exact hpast t ht
  exact ⟨r, hr, hlead, hmatch, hprogress, (progress_iff (twoProbes_run hr)).mp hprogress⟩

/-- If the second refusal arrives, `nextIndex` falls back to the confirmed index 1. -/
theorem stale_refusal_undoes : ∃ r, twoProbes [.reply 0] = some r ∧
    Run (cluster 3 adder) r.1 r.2 ∧ (r.2.procs 0).rf.state = .leader ∧
    (r.2.procs 0).rf.matchIndex 1 = 1 ∧ (r.2.procs 0).rf.nextIndex 1 = 1 ∧
    ¬ Progress r.1 r.2 := by
  have hsome : (twoProbes [.reply 0]).map (fun r => decide ((r.2.procs 0).rf.state = .leader ∧
      (r.2.procs 0).rf.matchIndex 1 = 1 ∧ (r.2.procs 0).rf.nextIndex 1 = 1)) = some true := by
    decide +kernel
  obtain ⟨r, hr, hd⟩ := Option.map_eq_some_iff.mp hsome
  obtain ⟨hlead, hmatch, hnext⟩ := of_decide_eq_true hd
  refine ⟨r, hr, twoProbes_run hr, hlead, hmatch, hnext, fun hp => ?_⟩
  obtain ⟨hlt, _⟩ := hp r.2 (.inl rfl) 0 1 (by decide) hlead
  omega

end samples
end DistributedLabs.RaftProgress
