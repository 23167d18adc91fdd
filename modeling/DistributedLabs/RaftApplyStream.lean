import DistributedLabs.RaftSafety

set_option autoImplicit false

/-!
# The stream on `applyCh`

One incarnation of a peer runs from `Make` to its crash. The applier moves `lastApplied`
before it sends and releases the mutex around the send, so the stream is followed
together with the message that is on its way: what was sent, then that message, leads
from the boundary at `Make` to `lastApplied`.
-/
namespace DistributedLabs.RaftApplyStream
open RaftModel RaftCluster RaftShape RaftHistory Runs
open RaftSafety (adder first second third)

variable {n : ℕ} {C S : Type}

def index : ApplyMsg C S → ℕ
  | .command _ i => i
  | .snapshot _ _ i => i

/-- The index of the message before position `k`, and `base` before the first one. -/
def before (base : ℕ) (ms : List (ApplyMsg C S)) : ℕ → ℕ
  | 0 => base
  | k + 1 => (ms[k]?).elim base index

structure GapFree (base : ℕ) (ms : List (ApplyMsg C S)) : Prop where
  command : ∀ k c i, ms[k]? = some (.command c i) → i = before base ms k + 1
  snapshot : ∀ k data t i, ms[k]? = some (.snapshot data t i) → before base ms k < i
  fresh : ∀ (j k : ℕ) (data : Option S) (t i : ℕ) (c : Option C) (i' : ℕ), j < k →
    ms[j]? = some (.snapshot data t i) → ms[k]? = some (.command c i') → i < i'

section streams
variable {i j : ℕ} {ms : List (ApplyMsg C S)}

theorem Stream.head {m : ApplyMsg C S} (h : Stream i (m :: ms) j) :
    i < index m ∧ Stream (index m) ms j ∧ ∀ c k, m = .command c k → k = i + 1 := by
  cases m with
  | command c k =>
    obtain ⟨rfl, h⟩ := h
    exact ⟨Nat.lt_succ_self i, h, fun c' k' hm => by cases hm; rfl⟩
  | snapshot data t k => exact ⟨h.1, h.2, fun c' k' hm => by cases hm⟩

theorem Stream.getElem {m : ApplyMsg C S} {k : ℕ} (h : Stream i ms j) (hk : ms[k]? = some m) :
    before i ms k < index m ∧ ∀ c l, m = .command c l → l = before i ms k + 1 := by
  induction ms generalizing i k with
  | nil => cases hk
  | cons m' ms ih =>
    obtain ⟨hlt, hrest, hcmd⟩ := Stream.head h
    cases k with
    | zero =>
      cases hk
      exact ⟨hlt, hcmd⟩
    | succ k =>
      have hbefore : before i (m' :: ms) (k + 1) = before (index m') ms k := by
        cases k with
        | zero => rfl
        | succ k =>
          have hk' : k < ms.length := by
            have := (List.getElem?_eq_some_iff.mp hk).choose
            simp only [List.length_cons] at this
            omega
          simp [before, hk']
      rw [hbefore]
      exact ih hrest hk

theorem Stream.increasing {m m' : ApplyMsg C S} {k l : ℕ} (h : Stream i ms j) (hkl : k < l)
    (hk : ms[k]? = some m) (hl : ms[l]? = some m') : index m < index m' := by
  induction l generalizing m' with
  | zero => omega
  | succ l ih =>
    have hlt := (Stream.getElem h hl).1
    have hl' : l < ms.length := by
      have := (List.getElem?_eq_some_iff.mp hl).choose
      omega
    have hbefore : before i ms (l + 1) = index ms[l] := by simp [before, hl']
    rw [hbefore] at hlt
    rcases Nat.lt_succ_iff_lt_or_eq.mp hkl with hkl | rfl
    · exact (ih hkl (List.getElem?_eq_getElem hl')).trans hlt
    · rw [List.getElem?_eq_getElem hl'] at hk
      cases hk
      exact hlt

theorem Stream.gapFree (h : Stream i ms j) : GapFree i ms where
  command _ c l hk := (Stream.getElem h hk).2 c l rfl
  snapshot _ _ _ _ hk := (Stream.getElem h hk).1
  fresh _ _ _ _ _ _ _ hlt hj hk := Stream.increasing h hlt hj hk

end streams

section frames
variable {rf rf' : Raft n C S}

theorem observeTerm_applied (t : ℕ) : (rf.observeTerm t).lastApplied = rf.lastApplied := by
  unfold Raft.observeTerm
  split_ifs <;> rfl

theorem advanceCommitIndex_applied (h : rf.advanceCommitIndex = some rf') :
    rf'.lastApplied = rf.lastApplied := by
  rcases advanceCommitIndex_cases h with rfl | ⟨N, e, _, _, _, _, _, _, rfl⟩ <;> rfl

/-- No handler touches `lastApplied`; a snapshot that is ahead of it waits for the applier. -/
theorem Handled.applied {call : Call n C S} (h : Handled rf rf' call) :
    rf'.lastApplied = rf.lastApplied := by
  cases h with
  | requestVote args reply h =>
    rcases requestVote_cases h with ⟨_, rfl⟩ | ⟨_, _, _, _, rfl⟩ <;>
      exact observeTerm_applied args.term
  | appendEntries args reply h =>
    by_cases hle : rf.currentTerm ≤ args.term
    · exact (appendEntries_frame h hle).2.2.1
    · rcases appendEntries_cases h with ⟨_, rfl, _⟩ | ⟨hterm, _⟩ | ⟨hterm, _⟩
      · rfl
      · exact absurd hterm hle
      · exact absurd hterm hle
  | installSnapshot args reply h =>
    rcases installSnapshot_cases h with ⟨_, rfl⟩ | ⟨_, _, rfl⟩ | ⟨_, _, newLog, _, rfl⟩
    · rfl
    · exact follow_applied rf args.term
    · exact (install_frame _ args newLog).2.2.2.trans (follow_applied rf args.term)

theorem appendReply_applied {peer : Fin n} {args : AppendEntriesArgs n C}
    {reply : AppendEntriesReply} (h : rf.appendReply peer args reply = some rf') :
    rf'.lastApplied = rf.lastApplied := by
  unfold Raft.appendReply at h
  by_cases hold : rf.state ≠ .leader ∨ rf.currentTerm ≠ args.term
  · rw [if_pos hold] at h
    cases h
    rfl
  by_cases hterm : rf.currentTerm < reply.term
  · rw [if_neg hold, if_pos hterm] at h
    cases h
    rfl
  by_cases hsucc : reply.success = true
  · rw [if_neg hold, if_neg hterm, if_pos hsucc] at h
    rw [advanceCommitIndex_applied h]
  · rw [if_neg hold, if_neg hterm, if_neg hsucc] at h
    split_ifs at h
    · obtain ⟨next, rfl⟩ := backupNextIndex_eq h
      rfl
    · cases h
      rfl

theorem snapshotReply_applied (peer : Fin n) (args : InstallSnapshotArgs n S)
    (reply : InstallSnapshotReply) :
    (rf.snapshotReply peer args reply).lastApplied = rf.lastApplied := by
  unfold Raft.snapshotReply
  split_ifs <;> rfl

theorem start_applied (command : Option C) : (rf.start command).1.lastApplied = rf.lastApplied := by
  unfold Raft.start
  split_ifs <;> rfl

end frames

structure Held (x y : Proc n C S) : Prop where
  epoch : y.epoch = x.epoch
  sending : y.sending = x.sending
  applied : y.rf.lastApplied = x.rf.lastApplied

theorem Held.refl (x : Proc n C S) : Held x x := ⟨rfl, rfl, rfl⟩

theorem Replied.held {x y : Proc n C S} {peer : Fin n} {call : Call n C S}
    (h : Replied x peer y call) : Held x y := by
  cases h with
  | requestVote args reply rf votes h hy =>
    subst hy
    refine ⟨rfl, rfl, ?_⟩
    rcases voteReply_cases h with ⟨_, rfl⟩ | ⟨rfl, _⟩ | ⟨_, _, _, _, rfl | ⟨_, rfl⟩⟩
    · rfl
    · rfl
    · rfl
    · change (x.rf.becomeLeader _).lastApplied = _
      unfold Raft.becomeLeader
      split_ifs <;> rfl
  | appendEntries args reply rf h hy =>
    subst hy
    exact ⟨rfl, rfl, appendReply_applied h⟩
  | installSnapshot args reply hy =>
    subst hy
    exact ⟨rfl, rfl, snapshotReply_applied peer args reply⟩

section steps
variable {sm : StateMachine C S} {s u : Cluster n C S}

theorem held_update {p : Fin n} {y : Proc n C S} (h : Held (s.procs p) y) (q : Fin n) :
    Held (s.procs q) (Function.update s.procs p y q) := by
  by_cases hq : q = p
  · subst hq
    rwa [Function.update_self]
  · rw [Function.update_of_ne hq]
    exact .refl _

/-- What a step can do to the streams: only the applier, the send and a restart matter. -/
inductive Effect (sm : StateMachine C S) (s u : Cluster n C S) : Label n C → Prop where
  | quiet (l : Label n C) (procs : ∀ q, Held (s.procs q) (u.procs q))
      (delivered : u.delivered = s.delivered) (hl : ∀ p, l ≠ .restart p) : Effect sm s u l
  | applier (p : Fin n) (rf : Raft n C S) (msg : ApplyMsg C S)
      (free : (s.procs p).sending = none) (ready : (s.procs p).rf.applierReady = true)
      (took : (s.procs p).rf.applier = some (rf, msg))
      (hu : u = s.setProc p { s.procs p with rf := rf, sending := some msg }) :
      Effect sm s u (.applier p)
  | send (p : Fin n) (msg : ApplyMsg C S) (ready : (s.procs p).sending = some msg)
      (hu : u = { s.setProc p { s.procs p with
        sending := none, applyCh := (s.procs p).applyCh ++ [msg] } with
        delivered := ⟨p, (s.procs p).epoch, msg⟩ :: s.delivered }) : Effect sm s u (.send p)
  | restart (p : Fin n)
      (hu : u = s.setProc p (boot sm p ((s.procs p).epoch + 1) (s.procs p).rf.persister)) :
      Effect sm s u (.restart p)

theorem exec_effect {l : Label n C} (h : s.exec sm l = some u) : Effect sm s u l := by
  cases exec_spec h with
  | tick p => exact .quiet _ (held_update ⟨rfl, rfl, rfl⟩) rfl nofun
  | startElection p => exact .quiet _ (held_update ⟨rfl, rfl, rfl⟩) rfl nofun
  | skipVote p term peer => exact .quiet _ (held_update ⟨rfl, rfl, rfl⟩) rfl nofun
  | sendVote p term peer => exact .quiet _ (held_update ⟨rfl, rfl, rfl⟩) rfl nofun
  | skipReplicate p peer => exact .quiet _ (fun _ => .refl _) rfl nofun
  | sendAppend p peer => exact .quiet _ (fun _ => .refl _) rfl nofun
  | sendSnapshot p peer => exact .quiet _ (fun _ => .refl _) rfl nofun
  | handle k r call rf hk hh =>
    exact .quiet _ (held_update ⟨rfl, rfl, Handled.applied hh⟩) rfl nofun
  | reply k r y hk hy => exact .quiet _ (held_update (Replied.held hy)) rfl nofun
  | lose k => exact .quiet _ (fun _ => .refl _) rfl nofun
  | start p command =>
    exact .quiet _ (held_update ⟨rfl, rfl, start_applied command⟩) rfl nofun
  | snapshot p k i st rf hrf =>
    refine .quiet _ (held_update ⟨rfl, rfl, ?_⟩) rfl nofun
    rcases takeSnapshot_cases hrf with rfl | ⟨_, _, e, newLog, _, _, rfl⟩ <;> rfl
  | applier p rf msg free ready took => exact .applier p rf msg free ready took rfl
  | send p msg ready => exact .send p msg ready rfl
  | receive p => exact .quiet _ (held_update ⟨rfl, rfl, rfl⟩) rfl nofun
  | restart p => exact .restart p rfl

end steps

section runs
variable {sm : StateMachine C S} {s : Cluster n C S}
  {tr : List (Transition (Cluster n C S) (Label n C))}

def sentBy (d : List (Delivery n C S)) (p : Fin n) (e : ℕ) : List (ApplyMsg C S) :=
  ((d.filter fun x => x.peer = p ∧ x.epoch = e).map Delivery.msg).reverse

inductive MadeWith (tr : List (Transition (Cluster n C S) (Label n C))) (p : Fin n) :
    ℕ → ℕ → Prop where
  | boot : MadeWith tr p 0 (Raft.make p (⟨none, none⟩ : Persister n C S)).lastIncludedIndex
  | restart (t : Transition (Cluster n C S) (Label n C)) (ht : t ∈ tr) (hl : t.label = .restart p) :
      MadeWith tr p (t.post.procs p).epoch (t.post.procs p).rf.lastIncludedIndex

def StreamsGapFree (tr : List (Transition (Cluster n C S) (Label n C))) (s : Cluster n C S) :
    Prop :=
  (∀ x ∈ s.delivered, ∃ base, MadeWith tr x.peer x.epoch base) ∧
  ∀ p e base, MadeWith tr p e base → GapFree base (sentBy s.delivered p e)

/-- The invariant of one peer: past incarnations have left a stream, and the running one's
    stream goes on, through the message that is being sent, up to `lastApplied`. -/
structure PeerStream (tr : List (Transition (Cluster n C S) (Label n C)))
    (d : List (Delivery n C S)) (p : Fin n) (x : Proc n C S) : Prop where
  made : ∃ base, MadeWith tr p x.epoch base
  origin : ∀ y ∈ d, y.peer = p → y.epoch ≤ x.epoch ∧ ∃ base, MadeWith tr p y.epoch base
  before : ∀ e base, MadeWith tr p e base → e ≤ x.epoch ∧ ∃ j, Stream base (sentBy d p e) j
  now : ∀ base, MadeWith tr p x.epoch base →
    Stream base (sentBy d p x.epoch ++ x.sending.toList) x.rf.lastApplied

theorem MadeWith.cons {t : Transition (Cluster n C S) (Label n C)} {p : Fin n} {e base : ℕ}
    (h : MadeWith tr p e base) : MadeWith (t :: tr) p e base := by
  cases h with
  | boot => exact .boot
  | restart t' ht hl => exact .restart t' (List.mem_cons_of_mem _ ht) hl

theorem MadeWith.of_cons {t : Transition (Cluster n C S) (Label n C)} {p : Fin n} {e base : ℕ}
    (h : MadeWith (t :: tr) p e base) (hl : t.label ≠ .restart p) : MadeWith tr p e base := by
  cases h with
  | boot => exact .boot
  | restart t' ht hl' =>
    rcases List.mem_cons.mp ht with rfl | ht
    · exact absurd hl' hl
    · exact .restart t' ht hl'

theorem sentBy_cons (d : List (Delivery n C S)) (x : Delivery n C S) (p : Fin n) (e : ℕ) :
    sentBy (x :: d) p e =
      if x.peer = p ∧ x.epoch = e then sentBy d p e ++ [x.msg] else sentBy d p e := by
  unfold sentBy
  by_cases h : x.peer = p ∧ x.epoch = e
  · rw [if_pos h, List.filter_cons_of_pos (by simpa using h), List.map_cons, List.reverse_cons]
  · rw [if_neg h, List.filter_cons_of_neg (by simpa using h)]

theorem sentBy_eq_nil {d : List (Delivery n C S)} {p : Fin n} {e : ℕ}
    (h : ∀ y ∈ d, y.peer = p → y.epoch ≠ e) : sentBy d p e = [] := by
  unfold sentBy
  rw [List.filter_eq_nil_iff.mpr]
  · rfl
  · intro y hy
    simpa using h y hy

theorem PeerStream.keep {t : Transition (Cluster n C S) (Label n C)} {d d' : List (Delivery n C S)}
    {p : Fin n} {x y : Proc n C S} (hi : PeerStream tr d p x) (hl : t.label ≠ .restart p)
    (hxy : Held x y) (hd : ∀ z ∈ d', z.peer = p → z ∈ d)
    (hsent : ∀ e, sentBy d' p e = sentBy d p e) : PeerStream (t :: tr) d' p y where
  made := by
    obtain ⟨base, hb⟩ := hi.made
    rw [hxy.epoch]
    exact ⟨base, hb.cons⟩
  origin z hz hp := by
    obtain ⟨hle, base, hb⟩ := hi.origin z (hd z hz hp) hp
    rw [hxy.epoch]
    exact ⟨hle, base, hb.cons⟩
  before e base hb := by
    rw [hxy.epoch, hsent]
    exact hi.before e base (hb.of_cons hl)
  now base hb := by
    rw [hxy.epoch] at hb
    rw [hxy.epoch, hsent, hxy.sending, hxy.applied]
    exact hi.now base (hb.of_cons hl)

section actions
variable {g : History n C} {p : Fin n}

theorem PeerStream.applier {t : Transition (Cluster n C S) (Label n C)} {d : List (Delivery n C S)}
    {x : Proc n C S} {rf : Raft n C S} {msg : ApplyMsg C S} (hi : PeerStream tr d p x)
    (hl : t.label ≠ .restart p) (free : x.sending = none)
    (hs : Stream x.rf.lastApplied [msg] rf.lastApplied) :
    PeerStream (t :: tr) d p { x with rf := rf, sending := some msg } where
  made := by
    obtain ⟨base, hb⟩ := hi.made
    exact ⟨base, hb.cons⟩
  origin z hz hp := by
    obtain ⟨hle, base, hb⟩ := hi.origin z hz hp
    exact ⟨hle, base, hb.cons⟩
  before e base hb := hi.before e base (hb.of_cons hl)
  now base hb := by
    have h := hi.now base (hb.of_cons hl)
    rw [free, Option.toList_none, List.append_nil] at h
    exact h.append hs

theorem PeerStream.send {t : Transition (Cluster n C S) (Label n C)} {d : List (Delivery n C S)}
    {x : Proc n C S} {msg : ApplyMsg C S} {ch : List (ApplyMsg C S)} (hi : PeerStream tr d p x)
    (hl : t.label ≠ .restart p) (ready : x.sending = some msg) :
    PeerStream (t :: tr) (⟨p, x.epoch, msg⟩ :: d) p { x with sending := none, applyCh := ch } where
  made := by
    obtain ⟨base, hb⟩ := hi.made
    exact ⟨base, hb.cons⟩
  origin z hz hp := by
    rcases List.mem_cons.mp hz with rfl | hz
    · obtain ⟨base, hb⟩ := hi.made
      exact ⟨Nat.le_refl _, base, hb.cons⟩
    · obtain ⟨hle, base, hb⟩ := hi.origin z hz hp
      exact ⟨hle, base, hb.cons⟩
  before e base hb := by
    have hb := hb.of_cons hl
    obtain ⟨hle, hj⟩ := hi.before e base hb
    refine ⟨hle, ?_⟩
    rw [sentBy_cons]
    split_ifs with he
    · obtain ⟨_, rfl⟩ := he
      have h := hi.now base hb
      rw [ready] at h
      exact ⟨_, h⟩
    · exact hj
  now base hb := by
    have h := hi.now base (hb.of_cons hl)
    rw [ready] at h
    rw [sentBy_cons, if_pos ⟨rfl, rfl⟩, Option.toList_none, List.append_nil]
    exact h

/-- A restart begins an empty stream at the boundary it was made with. -/
theorem PeerStream.restart {d : List (Delivery n C S)} {u : Cluster n C S}
    (hi : PeerStream tr d p (s.procs p))
    (hu : u.procs p = boot sm p ((s.procs p).epoch + 1) (s.procs p).rf.persister) :
    PeerStream (⟨s, .restart p, u⟩ :: tr) d p (u.procs p) := by
  have hepoch : (u.procs p).epoch = (s.procs p).epoch + 1 := by rw [hu]; rfl
  have hsending : (u.procs p).sending = none := by rw [hu]; rfl
  have happlied : (u.procs p).rf.lastApplied = (u.procs p).rf.lastIncludedIndex := by
    rw [hu]
    exact (make_frame p _).2.2.2.2.1
  have hnil : sentBy d p (u.procs p).epoch = [] := by
    refine sentBy_eq_nil fun y hy hp => ?_
    have := (hi.origin y hy hp).1
    omega
  have split : ∀ e base, MadeWith (⟨s, .restart p, u⟩ :: tr) p e base →
      MadeWith tr p e base ∨ (e = (u.procs p).epoch ∧ base = (u.procs p).rf.lastIncludedIndex) := by
    intro e base h
    cases h with
    | boot => exact .inl .boot
    | restart t' ht hl' =>
      rcases List.mem_cons.mp ht with rfl | ht
      · exact .inr ⟨rfl, rfl⟩
      · exact .inl (.restart t' ht hl')
  refine ⟨⟨_, .restart _ List.mem_cons_self rfl⟩, fun z hz hp => ?_, fun e base hb => ?_,
    fun base hb => ?_⟩
  · obtain ⟨hle, base, hb⟩ := hi.origin z hz hp
    exact ⟨by omega, base, hb.cons⟩
  · rcases split e base hb with hb | ⟨rfl, rfl⟩
    · obtain ⟨hle, hj⟩ := hi.before e base hb
      exact ⟨by omega, hj⟩
    · exact ⟨Nat.le_refl _, _, by rw [hnil]; rfl⟩
  · rcases split _ base hb with hb | ⟨_, rfl⟩
    · have := (hi.before _ base hb).1
      omega
    · rw [hnil, hsending]
      exact happlied.symm

end actions

theorem peerStream_step {u : Cluster n C S} {l : Label n C} (run : Run (cluster n sm) tr s)
    (hi : ∀ p, PeerStream tr s.delivered p (s.procs p)) (h : s.exec sm l = some u) (q : Fin n) :
    PeerStream (⟨s, l, u⟩ :: tr) u.delivered q (u.procs q) := by
  cases exec_effect h with
  | quiet _ procs delivered hl =>
    rw [delivered]
    exact (hi q).keep (hl q) (procs q) (fun z hz _ => hz) (fun _ => rfl)
  | applier p rf msg free ready took hu =>
    subst hu
    by_cases hq : q = p
    · subst hq
      obtain ⟨g, hinv, _⟩ := RaftSafety.visits_inv run
      obtain ⟨_, _, hs, _⟩ := applier_step (hinv.procs q).raft ready took
      simp only [Cluster.setProc, Function.update_self]
      exact (hi q).applier (by simp) free hs
    · simp only [Cluster.setProc, Function.update_of_ne hq]
      exact (hi q).keep (by simp) (.refl _) (fun z hz _ => hz) (fun _ => rfl)
  | send p msg ready hu =>
    subst hu
    by_cases hq : q = p
    · subst hq
      simp only [Cluster.setProc, Function.update_self]
      exact (hi q).send (by simp) ready
    · simp only [Cluster.setProc, Function.update_of_ne hq]
      refine (hi q).keep (by simp) (.refl _) (fun z hz hp => ?_) (fun e => ?_)
      · rcases List.mem_cons.mp hz with rfl | hz
        · exact absurd hp.symm hq
        · exact hz
      · rw [sentBy_cons, if_neg fun h => hq h.1.symm]
  | restart p hu =>
    by_cases hq : q = p
    · subst hq
      have hp : u.procs q = boot sm q ((s.procs q).epoch + 1) (s.procs q).rf.persister := by
        rw [hu]
        simp [Cluster.setProc]
      have hd : u.delivered = s.delivered := by rw [hu]; rfl
      rw [hd]
      exact (hi q).restart hp
    · subst hu
      simp only [Cluster.setProc, Function.update_of_ne hq]
      refine (hi q).keep (fun hl => ?_) (.refl _) (fun z hz _ => hz) (fun _ => rfl)
      cases hl
      exact hq rfl

theorem peerStream_init (p : Fin n) :
    PeerStream [] (initial sm : Cluster n C S).delivered p
      ((initial sm : Cluster n C S).procs p) := by
  have only : ∀ e base, MadeWith ([] : List (Transition (Cluster n C S) (Label n C))) p e base →
      e = 0 ∧ base = 0 := by
    intro e base h
    cases h with
    | boot => exact ⟨rfl, rfl⟩
    | restart t ht _ => cases ht
  refine ⟨⟨_, .boot⟩, nofun, fun e base hb => ?_, fun base hb => ?_⟩
  · obtain ⟨rfl, rfl⟩ := only e base hb
    exact ⟨Nat.le_refl _, 0, rfl⟩
  · obtain ⟨_, rfl⟩ := only _ base hb
    rfl

theorem apply_stream (run : Run (cluster n sm) tr s) : StreamsGapFree tr s := by
  have hi : ∀ p, PeerStream tr s.delivered p (s.procs p) :=
    run.history (I := fun tr s => ∀ p, PeerStream tr s.delivered p (s.procs p))
      (fun s hs p => by
        cases hs
        exact peerStream_init p)
      (fun tr s l u run hi h q => peerStream_step run hi h q)
  constructor
  · intro x hx
    exact ((hi x.peer).origin x hx rfl).2
  · intro p e base hb
    obtain ⟨_, j, hj⟩ := (hi p).before e base hb
    exact Stream.gapFree hj

/-- The third peer misses two commands, gets them as a snapshot and then a third command;
    then the first one restarts from its own snapshot. -/
def skipped : Option (List (Transition (Cluster 3 ℕ ℕ) (Label 3 ℕ)) × Cluster 3 ℕ ℕ) :=
  replay (Cluster.exec adder) (initial adder) []
    [.tick first, .startElection first, .sendRequestVote first 1 second, .handle 0, .reply 0,
      .start first (some 5), .start first (some 6), .replicateOnce first second, .handle 0,
      .reply 0, .applier first, .send first, .applier first, .send first, .receive first,
      .receive first, .snapshot first 0, .replicateOnce first third, .handle 0, .reply 0,
      .start first (some 7), .replicateOnce first third, .handle 0, .reply 0,
      .replicateOnce first third, .handle 0, .applier third, .send third, .applier third,
      .send third, .restart first]

theorem apply_stream_skipped : ∃ r, skipped = some r ∧
    (sentBy r.2.delivered 0 0).map index = [1, 2] ∧
    (sentBy r.2.delivered 2 0).map index = [2, 3] ∧
    (r.2.procs 0).rf.lastIncludedIndex = 2 ∧ StreamsGapFree r.1 r.2 := by
  have hsome : skipped.map (fun r => decide
      ((sentBy r.2.delivered 0 0).map index = [1, 2] ∧
        (sentBy r.2.delivered 2 0).map index = [2, 3] ∧
        (r.2.procs 0).rf.lastIncludedIndex = 2)) = some true := by decide +kernel
  obtain ⟨r, hr, hd⟩ := Option.map_eq_some_iff.mp hsome
  obtain ⟨hfirst, hthird, hbase⟩ := of_decide_eq_true hd
  exact ⟨r, hr, hfirst, hthird, hbase,
    apply_stream (Run.replay (fun _ _ _ h => h) _ (.start rfl) hr)⟩

end runs
end DistributedLabs.RaftApplyStream
