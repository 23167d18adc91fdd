import DistributedLabs.RaftNextIndex
import DistributedLabs.RsmStack

set_option autoImplicit false

/-!
# No call of Submit waits in vain

A call waits for a result in its channel and looks at Raft's state now and then. While
its server leads the term in which it was given its index, it is registered, its entry is
in the log and the reader has not passed it; in every other case its next look ends it.
-/
namespace DistributedLabs.RsmWaiters
open RsmModel Runs RsmStack
open RaftCluster (Cluster Proc)

variable {n : ℕ} {R V B St : Type} {machine : StateMachine R V B St} {maxraftstate : ℤ}
  {w u : Stack n R V B St} {p : Fin n} {x y : Proc n (Command n R) (SnapshotData B)}
  {rsm rsm' : RSM n R V B St}

section lists

theorem lookup_filter {l : List (ℕ × ℕ)} {f : ℕ → Bool} {a : ℕ} (h : f a = true) :
    (l.filter fun y => f y.1).lookup a = l.lookup a := by
  induction l with
  | nil => rfl
  | cons y l ih =>
    obtain ⟨b, v⟩ := y
    by_cases hab : a = b
    · subst hab
      simp [h]
    · cases hb : f b <;> simp [hb, List.lookup_cons, ih, beq_eq_false_iff_ne.mpr hab]

theorem mem_of_lookup {l : List (ℕ × ℕ)} {a b : ℕ} (h : l.lookup a = some b) : (a, b) ∈ l := by
  obtain ⟨front, back, rfl, _⟩ := List.lookup_eq_some_iff.mp h
  exact List.mem_append_right _ List.mem_cons_self

theorem post_filled {calls : List (Submission n R V)} {k : ℕ} {res : OpResult V}
    {c : Submission n R V} (h : (post calls k res)[k]? = some c) : c.ch ≠ none := by
  simp only [post, List.getElem?_modify, if_true] at h
  obtain ⟨d, _, rfl⟩ := Option.map_eq_some_iff.mp h
  cases hch : d.ch <;> simp [Submission.offer, hch]

theorem wake_filled {ws : List (ℕ × ℕ)} {calls : List (Submission n R V)} {i k : ℕ}
    {c : Submission n R V} (hk : (i, k) ∈ ws) (h : (wake calls ws)[k]? = some c) : c.ch ≠ none := by
  induction ws generalizing calls with
  | nil => cases hk
  | cons y ws ih =>
    rcases List.mem_cons.mp hk with rfl | hk
    · -- what is in the channel stays there while the others are woken
      have hlt : k < (post calls k ⟨none, .errWrongLeader⟩).length := by
        rw [← (fed_wake ws _).length]
        exact (List.getElem?_eq_some_iff.mp h).choose
      obtain ⟨c', hc', hfed⟩ := (fed_wake ws _).each k _ (List.getElem?_eq_getElem hlt)
      have hfull := post_filled (List.getElem?_eq_getElem hlt)
      obtain ⟨res, hres⟩ := Option.ne_none_iff_exists'.mp hfull
      have heq : c = c' := Option.some.inj (h.symm.trans hc')
      rw [heq, hfed.kept res hres]
      simp
    · exact ih hk h

end lists

def readTo (x : Proc n (Command n R) (SnapshotData B)) : ℕ :=
  match x.states with
  | [] => 0
  | y :: _ => y.1

/-- Whoever is registered for an index that `reader` has passed waits for its next step, or the
    index has gone to a command that wakes nobody. -/
structure ServerInv (d : List (RaftCluster.Delivery n (Command n R) (SnapshotData B)))
    (x : Proc n (Command n R) (SnapshotData B)) (rsm : RSM n R V B St) : Prop where
  passed : ∀ y ∈ rsm.pending, y.1 ≤ readTo x →
    (∃ o v, rsm.reader = .applied y.1 o v) ∨ agreed d y.1 = some .foreign
  before : ∀ i o v, rsm.reader = .applied i o v → rsm.lastApplied < i

/-- A call that nobody has answered is registered, or the server has moved to a later term. -/
structure CallInv (x : Proc n (Command n R) (SnapshotData B)) (rsm : RSM n R V B St) (k : ℕ)
    (c : Submission n R V) : Prop where
  term : c.term ≤ x.rf.currentTerm
  epoch : c.epoch ≤ x.epoch
  waits : c.epoch = x.epoch → c.returned = none → c.ch = none → rsm.dead = false →
    c.term < x.rf.currentTerm ∨ rsm.pending.lookup c.index = some k

structure Inv (w : Stack n R V B St) : Prop where
  servers : ∀ p, ServerInv w.raft.delivered (w.raft.procs p) (w.rsms p)
  calls : ∀ (k : ℕ) (c : Submission n R V), w.calls[k]? = some c →
    CallInv (w.raft.procs c.server) (w.rsms c.server) k c

structure Still (c c' : Submission n R V) : Prop where
  ticket : ticket c' = ticket c
  returned : c'.returned = none → c.returned = none
  ch : c'.returned = none → c'.ch = none → c.ch = none

theorem Still.refl (c : Submission n R V) : Still c c := ⟨rfl, fun h => h, fun _ h => h⟩

theorem still_of_fed {c c' : Submission n R V} (h : Fed c c') : Still c c' := by
  refine ⟨h.ticket, fun hr => h.returned ▸ hr, fun _ hch => ?_⟩
  cases hc : c.ch with
  | none => rfl
  | some res =>
    rw [h.kept res hc] at hch
    cases hch

theorem still_set {calls : List (Submission n R V)} {k : ℕ} {c d : Submission n R V}
    (hk : calls[k]? = some c) (h : Still c d) {j : ℕ} {e : Submission n R V}
    (hj : (calls.set k d)[j]? = some e) : ∃ c', calls[j]? = some c' ∧ Still c' e := by
  by_cases hjk : k = j
  · subst hjk
    rw [List.getElem?_set_self (List.getElem?_eq_some_iff.mp hk).choose] at hj
    cases hj
    exact ⟨c, hk, h⟩
  · rw [List.getElem?_set_ne hjk] at hj
    exact ⟨e, hj, .refl e⟩

theorem still_fed {calls calls' : List (Submission n R V)} (h : FedAll calls calls') {k : ℕ}
    {c' : Submission n R V} (hk : calls'[k]? = some c') : ∃ c, calls[k]? = some c ∧ Still c c' := by
  have hlt : k < calls.length := by
    rw [← h.length]
    exact (List.getElem?_eq_some_iff.mp hk).choose
  obtain ⟨d, hd, hfed⟩ := h.each k _ (List.getElem?_eq_getElem hlt)
  rw [hk] at hd
  cases hd
  exact ⟨_, List.getElem?_eq_getElem hlt, still_of_fed hfed⟩

theorem CallInv.keep {k : ℕ} {c c' : Submission n R V} (h : CallInv x rsm k c) (hs : Still c c')
    (hterm : x.rf.currentTerm ≤ y.rf.currentTerm) (hep : y.epoch = x.epoch)
    (hdead : rsm'.dead = false → rsm.dead = false)
    (hlook : rsm'.dead = false → c'.returned = none → c'.ch = none →
      rsm.pending.lookup c.index = some k →
      c.term < y.rf.currentTerm ∨ rsm'.pending.lookup c.index = some k) : CallInv y rsm' k c' := by
  have hticket := hs.ticket
  simp only [ticket, Ticket.mk.injEq] at hticket
  obtain ⟨_, hepoch, _, hindex, hct⟩ := hticket
  refine ⟨by rw [hct]; exact h.term.trans hterm, by rw [hepoch, hep]; exact h.epoch, ?_⟩
  intro hcur hret hch halive
  rw [hct, hindex]
  rcases h.waits (by rw [← hepoch, hcur, hep]) (hs.returned hret) (hs.ch hret hch) (hdead halive)
    with hlt | hreg
  · exact .inl (lt_of_lt_of_le hlt hterm)
  · exact hlook halive hret hch hreg

theorem Inv.move (h : Inv w)
    (hterm : ∀ q, (w.raft.procs q).rf.currentTerm ≤ (u.raft.procs q).rf.currentTerm)
    (hep : ∀ q, (u.raft.procs q).epoch = (w.raft.procs q).epoch)
    (hst : ∀ q, q ≠ p → (u.raft.procs q).states = (w.raft.procs q).states)
    (hu : u.rsms = Function.update w.rsms p rsm)
    (hd : ∀ i, agreed w.raft.delivered i = some .foreign → agreed u.raft.delivered i = some .foreign)
    (hp : ServerInv u.raft.delivered (u.raft.procs p) rsm)
    (hdead : rsm.dead = false → (w.rsms p).dead = false)
    (hcalls : ∀ (k : ℕ) (c' : Submission n R V), u.calls[k]? = some c' →
      ∃ c, w.calls[k]? = some c ∧ Still c c' ∧ (c.server = p → rsm.dead = false → c'.returned = none →
        c'.ch = none → (w.rsms p).pending.lookup c.index = some k →
        rsm.pending.lookup c.index = some k)) :
    Inv u := by
  constructor
  · intro q
    rw [hu]
    by_cases hq : q = p
    · subst hq
      rw [Function.update_self]
      exact hp
    · rw [Function.update_of_ne hq]
      refine ⟨?_, (h.servers q).before⟩
      intro y hy hle
      have hread : readTo (u.raft.procs q) = readTo (w.raft.procs q) := by
        simp only [readTo, hst q hq]
      exact ((h.servers q).passed y hy (hread ▸ hle)).imp_right (hd y.1)
  · intro k c' hk
    obtain ⟨c, hc, hs, hlook⟩ := hcalls k c' hk
    have hserver : c'.server = c.server := congrArg Ticket.server hs.ticket
    have hcall := h.calls k c hc
    rw [hserver, hu]
    by_cases hq : c.server = p
    · subst hq
      rw [Function.update_self]
      exact hcall.keep hs (hterm _) (hep _) hdead
        (fun halive hret hch hreg => .inr (hlook rfl halive hret hch hreg))
    · rw [Function.update_of_ne hq]
      exact hcall.keep hs (hterm _) (hep _) (fun h => h) (fun _ _ _ hreg => .inr hreg)

theorem Inv.below (h : Inv w) {raft : Cluster n (Command n R) (SnapshotData B)}
    (hterm : ∀ q, (w.raft.procs q).rf.currentTerm ≤ (raft.procs q).rf.currentTerm)
    (hf : Frame w.raft raft) : Inv { w with raft := raft } := by
  constructor
  · intro q
    refine ⟨?_, (h.servers q).before⟩
    intro y hy hle
    have hread : readTo (raft.procs q) = readTo (w.raft.procs q) := by
      simp only [readTo, hf.states q]
    rw [hf.delivered]
    exact (h.servers q).passed y hy (hread ▸ hle)
  · intro k c hk
    exact (h.calls k c hk).keep (.refl c) (hterm _) (hf.epoch _) (fun h => h) (fun _ _ _ h => .inr h)

section steps
variable {past past' : List (Transition (Cluster n (Command n R) (SnapshotData B))
  (RaftCluster.Label n (Command n R)))}

theorem terms_grow {C S : Type} {sm : RaftCluster.StateMachine C S} {s v : Cluster n C S}
    {tr : List (Transition (Cluster n C S) (RaftCluster.Label n C))}
    (run : Run (RaftCluster.cluster n sm) tr s) (hv : Visits tr s v) (q : Fin n) :
    (v.procs q).rf.currentTerm ≤ (s.procs q).rf.currentTerm := by
  obtain ⟨⟨past, hpast⟩, hreach⟩ := run.of_visits hv
  obtain ⟨g, hi, _⟩ := RaftSafety.visits_inv hpast
  exact RaftHistory.reaches_term hreach hi q

theorem stream_le {C S : Type} {i j : ℕ} {ms : List (RaftModel.ApplyMsg C S)}
    (h : RaftHistory.Stream i ms j) : i ≤ j := by
  induction ms generalizing i with
  | nil => exact h.le
  | cons m ms ih =>
    cases m with
    | command c k =>
      have := ih h.2
      have := h.1
      omega
    | snapshot data t k =>
      have := ih h.2
      have := h.1
      omega

theorem readTo_le (hg : Grounded machine past w) (p : Fin n) :
    readTo (w.raft.procs p) ≤ (w.raft.procs p).rf.commitIndex := by
  obtain ⟨g, hi, _⟩ := RaftSafety.visits_inv hg.run
  obtain ⟨i, st, rest, hstates, hstream⟩ := (hi.procs p).stream
  simp only [readTo, hstates]
  exact (stream_le hstream).trans (hi.procs p).raft.applied_le

/-- A call of the term in which its server still is has its entry in the log. -/
theorem call_stays (hg : Grounded machine past w) {c : Submission n R V} (hc : c ∈ w.calls)
    (hterm : (w.raft.procs c.server).rf.currentTerm = c.term) :
    RaftProvenance.Stays (service machine) w.raft c.server (some (.op c.op)) c.index c.term := by
  obtain ⟨g, hi, ha⟩ := RaftProvenance.accounts_run hg.run
  obtain ⟨x, hx, hs⟩ := hg.booked.each (ticket c) (List.mem_map_of_mem hc)
  exact ha.stays hi hx hs hterm

/-- A new call takes the place of whoever was registered for its index, who is then behind. -/
theorem inv_submitted (hg : Grounded machine past w) (h : Inv w) (req : R) :
    Inv { raft := w.raft.setRaft p ((w.raft.procs p).rf.start
            (some (.op ⟨(w.rsms p).me, (w.rsms p).nextId + 1, req⟩))).1
          rsms := Function.update w.rsms p { w.rsms p with
            nextId := (w.rsms p).nextId + 1
            pending := ((w.raft.procs p).rf.lastLogIndex + 1, w.calls.length) ::
              (w.rsms p).pending.filter
                (fun x => decide (x.1 ≠ (w.raft.procs p).rf.lastLogIndex + 1)) }
          calls := w.calls ++ [⟨(w.rsms p).me, (w.raft.procs p).epoch,
            ⟨(w.rsms p).me, (w.rsms p).nextId + 1, req⟩, (w.raft.procs p).rf.lastLogIndex + 1,
            (w.raft.procs p).rf.currentTerm, none, none⟩] } := by
  obtain ⟨rf, hrf⟩ : ∃ rf, ((w.raft.procs p).rf.start
    (some (.op ⟨(w.rsms p).me, (w.rsms p).nextId + 1, req⟩))).1 = rf := ⟨_, rfl⟩
  have hterm : rf.currentTerm = (w.raft.procs p).rf.currentTerm := by
    rw [← hrf]
    unfold RaftModel.Raft.start
    split_ifs <;> rfl
  rw [hrf]
  obtain ⟨g, hi, _⟩ := RaftSafety.visits_inv hg.run
  have hraft := (hi.procs p).raft
  have hlast : (w.raft.procs p).rf.commitIndex ≤ (w.raft.procs p).rf.lastLogIndex := by
    rw [hraft.shape.lastLogIndex]
    exact hraft.commit_le
  have hread := readTo_le hg p
  have hproc : ∀ q, ((w.raft.setRaft p rf).procs q).rf.currentTerm =
      (w.raft.procs q).rf.currentTerm := by
    intro q
    by_cases hq : q = p
    · subst hq
      simp [Cluster.setRaft, Cluster.setProc, hterm]
    · simp [Cluster.setRaft, Cluster.setProc, hq]
  have hf := Frame.setRaft w.raft p rf
  constructor
  · intro q
    have hsame : readTo ((w.raft.setRaft p rf).procs q) = readTo (w.raft.procs q) := by
      simp only [readTo, hf.states q]
    by_cases hq : q = p
    · subst hq
      simp only [Function.update_self]
      refine ⟨?_, (h.servers q).before⟩
      intro y hy hle
      rw [hsame] at hle
      rcases List.mem_cons.mp hy with rfl | hy
      · dsimp only at hle
        omega
      · exact (h.servers q).passed y (List.mem_of_mem_filter hy) hle
    · simp only [Function.update_of_ne hq]
      exact ⟨fun y hy hle => (h.servers q).passed y hy (hsame ▸ hle), (h.servers q).before⟩
  · intro k c hk
    have hme := (hg.sync p).me
    rcases Nat.lt_or_ge k w.calls.length with hlt | hge
    · rw [List.getElem?_append_left hlt] at hk
      have hcall := h.calls k c hk
      by_cases hq : c.server = p
      · obtain rfl : p = c.server := hq.symm
        simp only [Function.update_self]
        refine hcall.keep (.refl c) (hproc _).ge (hf.epoch _) (fun h => h) ?_
        intro _ _ _ hreg
        rw [hproc]
        by_cases hidx : c.index = (w.raft.procs c.server).rf.lastLogIndex + 1
        · left
          refine lt_of_le_of_ne hcall.term fun heq => ?_
          have := (call_stays hg (List.mem_of_getElem? hk) heq.symm).within
          omega
        · right
          rw [List.lookup_cons, beq_eq_false_iff_ne.mpr hidx]
          exact (lookup_filter (f := fun a => decide (a ≠ _)) (by simpa using hidx)).trans hreg
      · simp only [Function.update_of_ne hq]
        exact hcall.keep (.refl c) (hproc _).ge (hf.epoch _) (fun h => h) (fun _ _ _ h => .inr h)
    · have hk' := (List.getElem?_eq_some_iff.mp hk).choose
      rw [List.length_append, List.length_singleton] at hk'
      obtain rfl : k = w.calls.length := by omega
      rw [List.getElem?_concat_length] at hk
      cases hk
      simp only [hme, Function.update_self]
      exact ⟨(hproc p).ge, (hf.epoch p).ge, fun _ _ _ _ => .inr (by simp)⟩

theorem inv_read (round : Restores machine)
    (hg : Grounded machine past w) (h : Inv w)
    {raft : Cluster n (Command n R) (SnapshotData B)} {calls : List (Submission n R V)}
    (hraft : w.raft.exec (service machine) (.receive p) = some raft)
    (hread : (w.rsms p).read machine w.calls = some (rsm, calls)) :
    Inv { w.setRSM p rsm with raft := raft, calls := calls } := by
  obtain ⟨g, hi, _⟩ := RaftSafety.visits_inv hg.run
  obtain ⟨hep, hrf, hd⟩ := receive_keeps hraft
  obtain ⟨hr, i, rest, hstates, hle, hcases⟩ := (hg.sync p).reads round (hi.procs p) hraft hread
  have hst : ∀ q, q ≠ p → (raft.procs q).states = (w.raft.procs q).states := by
    intro q hq
    cases RaftCluster.exec_spec hraft
    simp [Cluster.setProc, hq]
  have hto : readTo (w.raft.procs p) = i := by simp [readTo, hstates]
  have hold : ∀ y ∈ (w.rsms p).pending, y.1 ≤ i → agreed w.raft.delivered y.1 = some .foreign := by
    intro y hy hyi
    rcases (h.servers p).passed y hy (by rw [hto]; exact hyi) with ⟨o, v, ha⟩ | hf
    · rw [hr] at ha
      cases ha
    · exact hf
  have hfed := fed_read hread
  have hsent : ∀ c ms, (w.raft.procs p).applyCh = .command c (i + 1) :: ms →
      agreed w.raft.delivered (i + 1) = some (commandToOp c) := by
    intro c ms hch
    obtain ⟨z, hz, hmsg⟩ := (hi.procs p).sent (.command c (i + 1)) (by simp [hch])
    exact hg.agree.agreed.mpr ⟨z, hz, commandAt_eq_some.mpr ⟨c, hmsg, rfl⟩⟩
  generalize hy : raft.procs p = y at hcases
  have hterm : ∀ q, (w.raft.procs q).rf.currentTerm ≤ (raft.procs q).rf.currentTerm := by
    intro q
    rw [hrf]
  have hagreed : ∀ j, agreed w.raft.delivered j = some .foreign →
      agreed raft.delivered j = some .foreign := by
    rw [hd]
    exact fun _ hj => hj
  cases hcases with
  | foreign c ms hch hc =>
    refine h.move (p := p) hterm hep hst rfl hagreed ⟨?_, ?_⟩ (fun hdead => hdead) ?_
    · intro z hz hzi
      rw [hy] at hzi
      rw [hd]
      right
      rcases Nat.lt_or_ge i z.1 with hlt | hge
      · have heq : z.1 = i + 1 := Nat.le_antisymm hzi hlt
        rw [heq, hsent c ms hch, hc]
      · exact hold z hz hge
    · intro j o v hj
      change (w.rsms p).reader = _ at hj
      rw [hr] at hj
      cases hj
    · exact fun k c hk => ⟨c, hk, .refl c, fun _ _ _ _ hreg => hreg⟩
  | op c ms o hch hc =>
    refine h.move (p := p) hterm hep hst rfl hagreed ⟨?_, ?_⟩ (fun hdead => hdead) ?_
    · intro z hz hzi
      rw [hy] at hzi
      rw [hd]
      rcases Nat.lt_or_ge i z.1 with hlt | hge
      · left
        have heq : z.1 = i + 1 := Nat.le_antisymm hzi hlt
        rw [heq]
        exact ⟨_, _, rfl⟩
      · exact .inr (hold z hz hge)
    · intro j o' v hj
      cases hj
      dsimp only
      omega
    · exact fun k c hk => ⟨c, hk, .refl c, fun _ _ _ _ hreg => hreg⟩
  | snapshot data t k st ms hch hk _ =>
    refine h.move (p := p) hterm hep hst rfl hagreed ⟨?_, ?_⟩ (fun hdead => hdead) ?_
    · intro z hz hzi
      rw [hy] at hzi
      have hlt := (List.mem_filter.mp hz).2
      have hzi' : z.1 ≤ k := hzi
      simp only [decide_eq_true_eq] at hlt
      omega
    · intro j o v hj
      change (w.rsms p).reader = _ at hj
      rw [hr] at hj
      cases hj
    · intro j c' hj
      obtain ⟨c, hc, hs⟩ := still_fed hfed hj
      refine ⟨c, hc, hs, ?_⟩
      intro _ _ _ hempty hreg
      rcases Nat.lt_or_ge k c.index with hlt | hge
      · exact (lookup_filter (f := fun a => decide (k < a)) (by simpa using hlt)).trans hreg
      · -- it has been woken
        refine absurd hempty (wake_filled (List.mem_filter.mpr ⟨mem_of_lookup hreg, ?_⟩) hj)
        simpa using hge

theorem Inv.above (h : Inv w) {calls : List (Submission n R V)}
    (hp : ServerInv w.raft.delivered (w.raft.procs p) rsm)
    (hdead : rsm.dead = false → (w.rsms p).dead = false)
    (hcalls : ∀ (k : ℕ) (c' : Submission n R V), calls[k]? = some c' →
      ∃ c, w.calls[k]? = some c ∧ Still c c' ∧ (c.server = p → rsm.dead = false → c'.returned = none →
        c'.ch = none → (w.rsms p).pending.lookup c.index = some k →
        rsm.pending.lookup c.index = some k)) :
    Inv { w.setRSM p rsm with calls := calls } :=
  h.move (u := { w.setRSM p rsm with calls := calls }) (fun _ => Nat.le_refl _) (fun _ => rfl)
    (fun _ _ => rfl) rfl (fun _ hj => hj) hp hdead hcalls

theorem inv_timeout (h : Inv w) {k curTerm : ℕ} {isLeader : Bool} {c c' : Submission n R V}
    (hk : w.calls[k]? = some c)
    (ht : (w.rsms c.server).timeout k c curTerm isLeader = (rsm, c')) :
    Inv { w.setRSM c.server rsm with calls := w.calls.set k c' } := by
  have gone : Still c { c with returned := some ⟨none, .errWrongLeader⟩ } :=
    ⟨rfl, fun hr => (by cases hr), fun hr => (by cases hr)⟩
  have hserver := h.servers c.server
  unfold RSM.timeout at ht
  split_ifs at ht with hdead hlost hown
  · cases ht
    refine h.above hserver (fun hd => hd) ?_
    intro j e hj
    obtain ⟨d, hd, hs⟩ := still_set hk gone hj
    exact ⟨d, hd, hs, fun _ _ _ _ hreg => hreg⟩
  · cases ht
    refine h.above ⟨fun y hy => hserver.passed y (List.mem_of_mem_filter hy), hserver.before⟩
      (fun hd => hd) ?_
    intro j e hj
    obtain ⟨d, hd, hs⟩ := still_set hk gone hj
    refine ⟨d, hd, hs, ?_⟩
    intro _ _ hret _ hreg
    have hne : d.index ≠ c.index := by
      intro heq
      rw [heq, hown] at hreg
      cases hreg
      rw [List.getElem?_set_self (List.getElem?_eq_some_iff.mp hk).choose] at hj
      cases hj
      cases hret
    exact (lookup_filter (f := fun a => decide (a ≠ c.index)) (by simpa using hne)).trans hreg
  · cases ht
    refine h.above hserver (fun hd => hd) ?_
    intro j e hj
    obtain ⟨d, hd, hs⟩ := still_set hk gone hj
    exact ⟨d, hd, hs, fun _ _ _ _ hreg => hreg⟩
  · cases ht
    refine h.above hserver (fun hd => hd) ?_
    intro j e hj
    obtain ⟨d, hd, hs⟩ := still_set hk (.refl c) hj
    exact ⟨d, hd, hs, fun _ _ _ _ hreg => hreg⟩

theorem inv_finish (h : Inv w) {calls : List (Submission n R V)}
    (hf : (w.rsms p).finish w.calls = some (rsm, calls)) :
    Inv { w.setRSM p rsm with calls := calls } := by
  have hserver := h.servers p
  have hfed := fed_finish hf
  unfold RSM.finish at hf
  split at hf
  · rename_i index o result hr
    -- who else is registered behind `reader` has been passed by before
    have hpassed : ∀ y ∈ (w.rsms p).pending, y.1 ≠ index → y.1 ≤ readTo (w.raft.procs p) →
        agreed w.raft.delivered y.1 = some .foreign := by
      intro y hy hne hle
      rcases hserver.passed y hy hle with ⟨o', v, ha⟩ | hfor
      · rw [hr] at ha
        cases ha
        exact absurd rfl hne
      · exact hfor
    dsimp only at hf
    cases hlook : (w.rsms p).pending.lookup index with
    | none =>
      rw [hlook] at hf
      cases hf
      refine h.above ⟨?_, fun _ _ _ ha => by cases ha⟩ (fun hd => hd) ?_
      · intro y hy hle
        refine .inr (hpassed y hy ?_ hle)
        rintro rfl
        have := List.lookup_eq_none_iff.mp hlook y hy
        simp at this
      · exact fun k c hk => ⟨c, hk, .refl c, fun _ _ _ _ hreg => hreg⟩
    | some k =>
      rw [hlook] at hf
      obtain ⟨c, hc, hf⟩ := Option.bind_eq_some_iff.mp hf
      cases hf
      refine h.above ⟨?_, fun _ _ _ ha => by cases ha⟩ (fun hd => hd) ?_
      · intro y hy hle
        obtain ⟨hmem, hne⟩ := List.mem_filter.mp hy
        exact .inr (hpassed y hmem (by simpa using hne) hle)
      · intro j e hj
        obtain ⟨d, hd, hs⟩ := still_fed hfed hj
        refine ⟨d, hd, hs, ?_⟩
        intro _ _ _ hempty hreg
        by_cases hidx : d.index = index
        · rw [hidx, hlook] at hreg
          cases hreg
          exact absurd hempty (post_filled hj)
        · exact (lookup_filter (f := fun a => decide (a ≠ index)) (by simpa using hidx)).trans hreg
  · cases hf

theorem inv_stop (h : Inv w) {calls : List (Submission n R V)}
    (hs : (w.rsms p).stop w.calls = some (rsm, calls)) :
    Inv { w.setRSM p rsm with calls := calls } := by
  have hfed := fed_stop hs
  unfold RSM.stop at hs
  split at hs
  · cases hs
    refine h.above ⟨fun y hy => (by cases hy), fun _ _ _ ha => (by cases ha)⟩ (fun hd => by cases hd) ?_
    intro j e hj
    obtain ⟨d, hd, hst⟩ := still_fed hfed hj
    exact ⟨d, hd, hst, fun _ hdead => by cases hdead⟩
  · cases hs

theorem inv_step (round : Restores machine)
    (hg : Grounded machine past w) (hg' : Grounded machine past' u)
    (hv : Visits past' u.raft w.raft) (h : Inv w) {l : Label n R} (hstep : Stepped machine w l u) :
    Inv u := by
  have hterm := terms_grow hg'.run hv
  have same : ∀ {q : Fin n}, ∀ (k : ℕ) (c' : Submission n R V), w.calls[k]? = some c' →
      ∃ c, w.calls[k]? = some c ∧ Still c c' ∧ (c.server = q → (w.rsms q).dead = false →
        c'.returned = none → c'.ch = none → (w.rsms q).pending.lookup c.index = some k →
        (w.rsms q).pending.lookup c.index = some k) :=
    fun k c hk => ⟨c, hk, .refl c, fun _ _ _ _ hreg => hreg⟩
  cases hstep with
  | raft l raft hl hr => exact h.below hterm (internal_frame hl hr)
  | submitDead p req dead => exact h
  | refused p req alive follows =>
    exact h.above { h.servers p with } (fun hd => hd) same
  | submitted p req alive lead => exact inv_submitted hg h req
  | startForeign p => exact h.below hterm (Frame.setRaft _ _ _)
  | receive k c res hk hch hepoch hret =>
    refine ⟨h.servers, ?_⟩
    intro j e hj
    have hgone : Still c { c with ch := none, returned := some res } :=
      ⟨rfl, fun hr => (by cases hr), fun hr => (by cases hr)⟩
    obtain ⟨d, hd, hs⟩ := still_set hk hgone hj
    have hserver : e.server = d.server := congrArg Ticket.server hs.ticket
    rw [hserver]
    exact (h.calls j d hd).keep hs (Nat.le_refl _) rfl (fun hd => hd) (fun _ _ _ hreg => .inr hreg)
  | timeout k c hk hepoch hret rsm c' ht => exact inv_timeout h hk ht
  | send p msg raft hmsg hr =>
    obtain ⟨m, hm, hr⟩ := Option.bind_eq_some_iff.mp hr
    rw [hmsg] at hm
    cases hm
    cases hr
    refine h.move (p := p) hterm ?_ ?_ rfl ?_ ?_ (fun hd => hd) same
    · intro q
      by_cases hq : q = p
      · subst hq
        simp [Cluster.setProc]
      · simp [Cluster.setProc, hq]
    · intro q hq
      simp [Cluster.setProc, hq]
    · intro i hi
      obtain ⟨z, hz, hc⟩ := hg.agree.agreed.mp hi
      exact hg'.agree.agreed.mpr ⟨z, List.mem_cons_of_mem _ hz, hc⟩
    · refine ⟨?_, (h.servers p).before⟩
      intro y hy hle
      have hread : readTo (w.raft.procs p) = readTo ((w.raft.setProc p { w.raft.procs p with
          sending := none
          applyCh := (w.raft.procs p).applyCh ++ [msg] }).procs p) := by
        simp [readTo, Cluster.setProc]
      refine ((h.servers p).passed y hy (hread ▸ hle)).imp_right fun hi => ?_
      obtain ⟨z, hz, hc⟩ := hg.agree.agreed.mp hi
      exact hg'.agree.agreed.mpr ⟨z, List.mem_cons_of_mem _ hz, hc⟩
  | read p raft rsm calls hraft hr => exact inv_read round hg h hraft hr
  | finish p rsm calls hf => exact inv_finish h hf
  | skipSnapshot p persistBytes hr =>
    refine h.above ⟨?_, fun _ _ _ ha => by cases ha⟩ (fun hd => hd) same
    intro y hy hle
    refine ((h.servers p).passed y hy hle).imp_left ?_
    rintro ⟨o, v, ha⟩
    rw [hr] at ha
    cases ha
  | snapshot p persistBytes rf hr hs =>
    have hf := Frame.setRaft w.raft p rf
    refine h.move (p := p) hterm hf.epoch (fun q _ => hf.states q) rfl (fun _ hi => hi)
      ⟨?_, fun _ _ _ ha => by cases ha⟩
      (fun hd => hd) same
    intro y hy hle
    have hread : readTo (w.raft.procs p) = readTo ((w.raft.setRaft p rf).procs p) := by
      simp only [readTo, hf.states p]
    refine ((h.servers p).passed y hy (hread ▸ hle)).imp_left ?_
    rintro ⟨o, v, ha⟩
    rw [hr] at ha
    cases ha
  | stop p rsm calls hs => exact inv_stop h hs
  | restart p raft hr =>
    cases hr
    have hmake : ∀ snapshot, (RSM.makeRSM machine p snapshot : RSM n R V B St).pending = [] ∧
        (RSM.makeRSM machine p snapshot : RSM n R V B St).reader = .receiving := by
      intro snapshot
      cases snapshot <;> exact ⟨rfl, rfl⟩
    constructor
    · intro q
      by_cases hq : q = p
      · subst hq
        refine ⟨?_, ?_⟩
        · intro y hy
          simp only [Stack.setRSM, Function.update_self, (hmake _).1] at hy
          cases hy
        · intro i o v ha
          simp only [Stack.setRSM, Function.update_self, (hmake _).2] at ha
          cases ha
      · simpa [Stack.setRSM, Cluster.setProc, hq] using h.servers q
    · intro k c hk
      have hcall := h.calls k c hk
      by_cases hq : c.server = p
      · -- the goroutine of the call has died with its process
        obtain rfl : p = c.server := hq.symm
        have hep := hcall.epoch
        refine ⟨hcall.term.trans (hterm _), ?_, ?_⟩
        · simp only [Cluster.setProc, Function.update_self, RaftCluster.boot]
          omega
        · intro hcur
          simp only [Cluster.setProc, Function.update_self, RaftCluster.boot] at hcur
          omega
      · simpa [Stack.setRSM, Cluster.setProc, hq] using hcall

end steps

section boundary
variable {past past' : List (Transition (Cluster n (Command n R) (SnapshotData B))
  (RaftCluster.Label n (Command n R)))}

theorem handled_base {C S : Type} {rf rf' : RaftModel.Raft n C S} {call : RaftCluster.Call n C S}
    (h : RaftCluster.Handled rf rf' call) : rf'.lastIncludedIndex = rf.lastIncludedIndex ∨
      ∃ args reply, call = .installSnapshot args (some reply) ∧ rf'.currentTerm = args.term := by
  cases h with
  | requestVote args reply hv =>
    have hobs : (rf.observeTerm args.term).lastIncludedIndex = rf.lastIncludedIndex := by
      unfold RaftModel.Raft.observeTerm
      split_ifs <;> rfl
    rcases RaftHistory.requestVote_cases hv with ⟨_, rfl⟩ | ⟨_, _, _, _, rfl⟩ <;> exact .inl hobs
  | appendEntries args reply ha =>
    left
    rcases RaftHistory.appendEntries_cases ha with ⟨_, rfl, _⟩ | ⟨hle, _⟩ | ⟨hle, _⟩
    · rfl
    · exact (RaftHistory.appendEntries_frame ha hle).2.2.2
    · exact (RaftHistory.appendEntries_frame ha hle).2.2.2
  | installSnapshot args reply hi =>
    rcases RaftHistory.installSnapshot_cases hi with ⟨_, rfl⟩ | ⟨_, _, rfl⟩ | ⟨hle, _, newLog, _, rfl⟩
    · exact .inl rfl
    · exact .inl (RaftHistory.follow_base _ _)
    · right
      refine ⟨args, reply, rfl, ?_⟩
      rw [(RaftHistory.install_frame _ _ _).1]
      exact RaftHistory.follow_term hle

theorem replied_base {C S : Type} {x y : Proc n C S} {peer : Fin n} {call : RaftCluster.Call n C S}
    (h : RaftCluster.Replied x peer y call) :
    y.rf.lastIncludedIndex = x.rf.lastIncludedIndex := by
  cases h with
  | requestVote args reply rf votes h hy =>
    subst hy
    rcases RaftHistory.voteReply_cases h with ⟨_, rfl⟩ | ⟨rfl, _⟩ | ⟨_, _, _, _, rfl | ⟨_, rfl⟩⟩
    · rfl
    · rfl
    · rfl
    · change (x.rf.becomeLeader args.term).lastIncludedIndex = _
      unfold RaftModel.Raft.becomeLeader
      split_ifs <;> rfl
  | appendEntries args reply rf h hy =>
    subst hy
    change rf.lastIncludedIndex = _
    rcases RaftNextIndex.appendReply_cases h with ⟨rfl, _⟩ | rfl | ⟨_, rfl | ⟨hint, _, rfl⟩⟩ |
      ⟨_, _, _, hadv⟩
    · rfl
    · rfl
    · rfl
    · rfl
    · rcases RaftHistory.advanceCommitIndex_cases hadv with rfl | ⟨N, e, _, _, _, _, _, _, rfl⟩ <;> rfl
  | installSnapshot args reply hy =>
    subst hy
    change (x.rf.snapshotReply peer args reply).lastIncludedIndex = _
    rcases RaftNextIndex.snapshotReply_cases x.rf peer args reply with heq | heq | ⟨_, _, heq⟩ <;>
      rw [heq] <;> rfl

/-- A peer that has led the term it is in moves its boundary only when it takes a snapshot. -/
theorem base_kept {C S : Type} {sm : RaftCluster.StateMachine C S} {s v : Cluster n C S}
    {g g' : RaftHistory.History n C} {l : RaftCluster.Label n C} (hi : RaftHistory.Inv sm s g)
    (hi' : RaftHistory.Inv sm v g') (h : s.exec sm l = some v) {q : Fin n}
    (hs : ∀ k, l ≠ .snapshot q k) {ld : TermLedger.Leader (Fin n) (RaftModel.LogEntry C)}
    (hl : g'.lead (v.procs q).rf.currentTerm = some ld) (hw : ld.who = q) :
    (v.procs q).rf.lastIncludedIndex = (s.procs q).rf.lastIncludedIndex := by
  have moved : ∀ (p : Fin n) (y : Proc n C S),
      (q = p → y.rf.lastIncludedIndex = (s.procs p).rf.lastIncludedIndex) →
      (Function.update s.procs p y q).rf.lastIncludedIndex = (s.procs q).rf.lastIncludedIndex := by
    intro p y hy
    by_cases hq : q = p
    · subst hq
      rw [Function.update_self]
      exact hy rfl
    · rw [Function.update_of_ne hq]
  cases RaftCluster.exec_spec h with
  | tick p => exact moved p _ fun _ => rfl
  | startElection p => exact moved p _ fun _ => rfl
  | skipVote p term peer => exact moved p _ fun _ => rfl
  | sendVote p term peer => exact moved p _ fun _ => rfl
  | skipReplicate p peer => rfl
  | sendAppend p peer => rfl
  | sendSnapshot p peer => rfl
  | handle k r call rf hk hh =>
    refine moved r.target _ fun hq => ?_
    rcases handled_base hh with hbase | ⟨args, reply, rfl, hterm⟩
    · exact hbase
    · -- the snapshot would be from another leader of the term
      subst hq
      have hlt := (List.getElem?_eq_some_iff.mp hk).choose
      obtain ⟨_, ld', hf, _⟩ := hi'.rpcs _ (List.mem_of_getElem? (List.getElem?_set_self hlt))
      simp only [Cluster.setRaft, Cluster.setProc, Function.update_self, hterm] at hl
      rw [hf.lead] at hl
      cases hl
      exact absurd (hf.who.symm.trans hw) hf.other
  | reply k r y hk hr => exact moved r.caller _ fun _ => replied_base hr
  | lose k => rfl
  | start p command =>
    refine moved p _ fun _ => ?_
    dsimp only
    unfold RaftModel.Raft.start
    split_ifs <;> rfl
  | snapshot p k i st rf ht =>
    exact moved p _ fun hq => absurd (by rw [hq]) (hs k)
  | applier p rf msg free ready ha =>
    refine moved p _ fun _ => ?_
    rcases RaftHistory.applier_cases ha with ⟨_, rfl, _⟩ | ⟨_, rfl, _⟩ <;> rfl
  | send p => exact moved p _ fun _ => rfl
  | receive p => exact moved p _ fun _ => rfl
  | restart p =>
    refine moved p _ fun _ => ?_
    have hraft := (hi.procs p).raft
    have hdurable := hraft.durable.lastIncludedIndex
    rw [hraft.me] at hdurable
    exact hdurable

/-- The boundary does not pass the entry of a call of the term before its server has applied it. -/
def Open (w : Stack n R V B St) (t : Ticket n R) : Prop :=
  (w.raft.procs t.server).rf.currentTerm = t.term →
    (w.raft.procs t.server).rf.lastIncludedIndex < t.index ∨
      t.index ≤ (w.rsms t.server).lastApplied

theorem Open.move {t : Ticket n R} (h : Open w t)
    (hterm : (u.raft.procs t.server).rf.currentTerm = t.term →
      (w.raft.procs t.server).rf.currentTerm = t.term)
    (hbase : (u.raft.procs t.server).rf.currentTerm = t.term →
      (u.raft.procs t.server).rf.lastIncludedIndex ≤
        max (w.raft.procs t.server).rf.lastIncludedIndex (u.rsms t.server).lastApplied)
    (happ : (w.rsms t.server).lastApplied ≤ (u.rsms t.server).lastApplied) : Open u t := by
  intro ht
  have hb := hbase ht
  rcases h (hterm ht) with hlt | hle
  · omega
  · exact .inr (hle.trans happ)

theorem applied_update {rsms : Fin n → RSM n R V B St}
    (h : (rsms p).lastApplied ≤ rsm.lastApplied) (q : Fin n) :
    (rsms q).lastApplied ≤ (Function.update rsms p rsm q).lastApplied := by
  by_cases hq : q = p
  · subst hq
    rwa [Function.update_self]
  · rw [Function.update_of_ne hq]

theorem timeout_applied {k curTerm : ℕ} {isLeader : Bool} {c c' : Submission n R V}
    (h : rsm.timeout k c curTerm isLeader = (rsm', c')) : rsm'.lastApplied = rsm.lastApplied := by
  unfold RSM.timeout at h
  split_ifs at h <;> cases h <;> rfl

theorem stop_applied {calls calls' : List (Submission n R V)}
    (h : rsm.stop calls = some (rsm', calls')) : rsm'.lastApplied = rsm.lastApplied := by
  unfold RSM.stop at h
  split at h
  · cases h
    rfl
  · cases h

theorem finish_applied {d : List (RaftCluster.Delivery n (Command n R) (SnapshotData B))}
    (hs : ServerInv d x rsm) {calls calls' : List (Submission n R V)}
    (h : rsm.finish calls = some (rsm', calls')) : rsm.lastApplied ≤ rsm'.lastApplied := by
  unfold RSM.finish at h
  split at h
  · rename_i index o result hr
    have hlt := hs.before index o result hr
    dsimp only at h
    cases hlook : rsm.pending.lookup index with
    | none =>
      rw [hlook] at h
      cases h
      exact hlt.le
    | some k =>
      rw [hlook] at h
      obtain ⟨c, _, h⟩ := Option.bind_eq_some_iff.mp h
      cases h
      exact hlt.le
  · cases h

theorem open_raft (hg : Grounded machine past w) (hg' : Grounded machine past' u)
    {l : RaftCluster.Label n (Command n R)} (h : w.raft.exec (service machine) l = some u.raft)
    {t : Ticket n R} (hs : ∀ k, l ≠ .snapshot t.server k) (ht : t ∈ u.calls.map ticket)
    (hterm : (u.raft.procs t.server).rf.currentTerm = t.term) :
    (u.raft.procs t.server).rf.lastIncludedIndex =
      (w.raft.procs t.server).rf.lastIncludedIndex := by
  obtain ⟨g, hi, _⟩ := RaftSafety.visits_inv hg.run
  obtain ⟨g', hi', ha⟩ := RaftProvenance.accounts_run hg'.run
  obtain ⟨x, hx, hbooks⟩ := hg'.booked.each t ht
  obtain ⟨ld, hl, hw, _⟩ := ha.kept x hx _ _ _ _ hbooks
  exact base_kept hi hi' h hs (by rw [hterm]; exact hl) hw

theorem read_applied (round : Restores machine) (hg : Grounded machine past w)
    {raft : Cluster n (Command n R) (SnapshotData B)} {calls : List (Submission n R V)}
    (hraft : w.raft.exec (service machine) (.receive p) = some raft)
    (hr : (w.rsms p).read machine w.calls = some (rsm, calls)) :
    (w.rsms p).lastApplied ≤ rsm.lastApplied := by
  obtain ⟨g, hi, _⟩ := RaftSafety.visits_inv hg.run
  obtain ⟨_, i, _, _, hle, hcases⟩ := (hg.sync p).reads round (hi.procs p) hraft hr
  generalize raft.procs p = y at hcases
  cases hcases with
  | foreign => exact le_refl _
  | op => exact le_refl _
  | snapshot data t k st ms hch hk _ => exact hle.trans hk.le

theorem takeSnapshot_base {C S : Type} {rf rf' : RaftModel.Raft n C S} {i : ℕ} {st : S}
    (h : rf.takeSnapshot i st = some rf') :
    rf'.lastIncludedIndex ≤ max rf.lastIncludedIndex i := by
  rcases RaftHistory.takeSnapshot_cases h with rfl | ⟨_, _, e, newLog, _, _, rfl⟩
  · exact le_max_left _ _
  · exact le_max_right _ _

theorem makeRSM_applied {snapshot : Option (SnapshotData B)} {epoch : ℕ}
    {persister : RaftModel.Persister n (Command n R) (SnapshotData B)}
    (h : Sync machine p (RaftCluster.boot (service machine) p epoch persister)
      (RSM.makeRSM machine p snapshot)) :
    (RSM.makeRSM machine p snapshot : RSM n R V B St).lastApplied =
      (RaftCluster.boot (service machine) p epoch persister).rf.lastIncludedIndex := by
  have hreader : (RSM.makeRSM machine p snapshot : RSM n R V B St).reader = .receiving := by
    cases snapshot <;> rfl
  have hstands := h.stands
  simp only [position, hreader, RaftCluster.boot, List.mem_singleton, Prod.mk.injEq] at hstands
  exact hstands.1

theorem open_step (round : Restores machine) (hg : Grounded machine past w)
    (hg' : Grounded machine past' u) (hv : Visits past' u.raft w.raft) (hw : Inv w)
    (h : ∀ t ∈ w.calls.map ticket, Open w t) {l : Label n R} (hstep : Stepped machine w l u) :
    ∀ t ∈ u.calls.map ticket, Open u t := by
  have hmono := terms_grow hg'.run hv
  have hterm : ∀ t ∈ w.calls.map ticket, (u.raft.procs t.server).rf.currentTerm = t.term →
      (w.raft.procs t.server).rf.currentTerm = t.term := by
    intro t ht heq
    obtain ⟨c, hc, rfl⟩ := List.mem_map.mp ht
    obtain ⟨k, hk⟩ := List.mem_iff_getElem?.mp hc
    exact Nat.le_antisymm ((hmono _).trans heq.le) (hw.calls k c hk).term
  -- Raft runs: the boundary of a peer that has led its term stays
  have below : ∀ (l' : RaftCluster.Label n (Command n R)) (t : Ticket n R),
      w.raft.exec (service machine) l' = some u.raft → (∀ k, l' ≠ .snapshot t.server k) →
      t ∈ w.calls.map ticket → t ∈ u.calls.map ticket →
      (w.rsms t.server).lastApplied ≤ (u.rsms t.server).lastApplied → Open u t := by
    intro l' t hr hs ht ht' happ
    refine (h t ht).move (hterm t ht) (fun heq => ?_) happ
    rw [open_raft hg hg' hr hs ht' heq]
    exact le_max_left _ _
  -- Raft stands still
  have above : ∀ t : Ticket n R, u.raft = w.raft → t ∈ w.calls.map ticket →
      (w.rsms t.server).lastApplied ≤ (u.rsms t.server).lastApplied → Open u t := by
    intro t hr ht happ
    refine (h t ht).move (hterm t ht) (fun _ => ?_) happ
    rw [hr]
    exact le_max_left _ _
  cases hstep with
  | raft l raft hl hr =>
    intro t ht
    refine below l t hr ?_ ht ht (le_refl _)
    rintro k rfl
    cases hl
  | submitDead p req dead => exact h
  | refused p req alive follows =>
    exact fun t ht => above t rfl ht (applied_update (by exact le_refl _) _)
  | submitted p req alive lead =>
    intro t ht
    have hmem := ht
    rw [List.map_append] at hmem
    rcases List.mem_append.mp hmem with hold | hnew
    · exact below (.start p _) t rfl (by simp) hold ht (applied_update (by exact le_refl _) _)
    · -- the new index is behind the whole log
      rw [List.map_singleton, List.mem_singleton] at hnew
      subst hnew
      intro _
      left
      obtain ⟨g, hi, _⟩ := RaftSafety.visits_inv hg.run
      have hshape := (hi.procs p).raft.shape
      have hbase := hshape.base
      have hlast := hshape.lastLogIndex
      simp only [ticket, (hg.sync p).me, Cluster.setRaft, Cluster.setProc, Function.update_self,
        RaftModel.Raft.start, lead, ne_eq, not_true_eq_false, if_false]
      change (w.raft.procs p).rf.lastIncludedIndex < _
      omega
  | startForeign p =>
    exact fun t ht => below (.start p (some .foreign)) t rfl (by simp) ht ht (le_refl _)
  | receive k c res hk hch hepoch hret =>
    intro t ht
    have htickets : _ = w.calls.map ticket :=
      tickets_set (d := { c with ch := none, returned := some res }) hk rfl
    exact above t rfl (htickets ▸ ht) (le_refl _)
  | timeout k c hk hepoch hret rsm c' hout =>
    intro t ht
    have htickets := tickets_set hk (ticket_timeout hout)
    exact above t rfl (htickets ▸ ht) (applied_update (timeout_applied hout).ge _)
  | send p msg raft hmsg hr =>
    exact fun t ht => below (.send p) t hr (by simp) ht ht (applied_update (by exact le_refl _) _)
  | read p raft rsm calls hraft hr =>
    exact fun t ht => below (.receive p) t hraft (by simp) ((fed_read hr).tickets ▸ ht) ht
      (applied_update (read_applied round hg hraft hr) _)
  | finish p rsm calls hf =>
    exact fun t ht => above t rfl ((fed_finish hf).tickets ▸ ht)
      (applied_update (finish_applied (hw.servers p) hf) _)
  | skipSnapshot p persistBytes hr =>
    exact fun t ht => above t rfl ht (applied_update (by exact le_refl _) _)
  | snapshot p persistBytes rf hr hs =>
    intro t ht
    refine (h t ht).move (hterm t ht) (fun _ => ?_) (applied_update (by exact le_refl _) _)
    by_cases hq : t.server = p
    · simp only [hq, Stack.setRSM, Cluster.setRaft, Cluster.setProc, Function.update_self]
      exact takeSnapshot_base hs
    · simp only [Cluster.setRaft, Cluster.setProc, Function.update_of_ne hq]
      exact le_max_left _ _
  | stop p rsm calls hs =>
    exact fun t ht => above t rfl ((fed_stop hs).tickets ▸ ht)
      (applied_update (stop_applied hs).ge _)
  | restart p raft hr =>
    intro t ht
    by_cases hq : t.server = p
    · -- the server has applied what is in the snapshot
      intro _
      have hsync := hg'.sync t.server
      cases hr
      simp only [hq, Stack.setRSM, Cluster.setProc, Function.update_self] at hsync ⊢
      have happ := makeRSM_applied hsync
      omega
    · refine below (.restart p) t hr (by simp) ht ht ?_
      simp only [Stack.setRSM, Function.update_of_ne hq]
      exact le_refl _

end boundary

section runs
variable {tr : List (Transition (Stack n R V B St) (Label n R))}

theorem inv_run (round : Restores machine) (run : Run (stack n machine maxraftstate) tr w) :
    ∃ past, Grounded machine past w ∧ Inv w ∧ ∀ t ∈ w.calls.map ticket, Open w t := by
  refine run.invariant (I := fun w => ∃ past, Grounded machine past w ∧ Inv w ∧
    ∀ t ∈ w.calls.map ticket, Open w t) ?_ ?_
  · rintro _ rfl
    obtain ⟨past, hg⟩ := grounded_run round (Run.start (M := stack n machine maxraftstate) rfl)
    refine ⟨past, hg, ⟨fun p => ⟨?_, ?_⟩, ?_⟩, ?_⟩
    · exact fun y hy => by cases hy
    · exact fun _ _ _ ha => by cases ha
    · exact fun k c hk => by cases hk
    · exact fun t ht => by cases ht
  · rintro w l u ⟨past, hg, h, hopen⟩ hstep
    have hstep := exec_spec hstep
    obtain ⟨past', hg', hv⟩ := hg.step round hstep
    exact ⟨past', hg', inv_step round hg hg' hv h hstep, open_step round hg hg' hv h hopen hstep⟩

/-- The call's own next step, when it finds a result or looks at Raft's state, ends it. -/
def Ends (machine : StateMachine R V B St) (maxraftstate : ℤ) (w : Stack n R V B St) (k : ℕ) :
    Prop :=
  ∃ l u, (l = .receive k ∨ l = .timeout k) ∧ w.exec machine maxraftstate l = some u ∧
    ∃ c, u.calls[k]? = some c ∧ c.returned ≠ none

/-- The call is registered under its index, which `reader` has not come to, its server still leads
    the term of the call, and the `Op` is in its log at that index and can be committed there. -/
structure Attended (machine : StateMachine R V B St) (w : Stack n R V B St) (k : ℕ)
    (c : Submission n R V) : Prop where
  registered : (w.rsms c.server).pending.lookup c.index = some k
  ahead : (w.rsms c.server).lastApplied < c.index
  leads : (w.raft.procs c.server).rf.state = .leader
  term : (w.raft.procs c.server).rf.currentTerm = c.term
  uncompacted : (w.raft.procs c.server).rf.lastIncludedIndex < c.index
  entry : (w.raft.procs c.server).rf.entryAt c.index = some ⟨c.term, some (.op c.op)⟩
  held : RaftProvenance.Stays (service machine) w.raft c.server (some (.op c.op)) c.index c.term

theorem timeout_ends {rf : RaftModel.Raft n (Command n R) (SnapshotData B)} (k : ℕ)
    {c : Submission n R V}
    (h : rsm.dead = true ∨ rf.state ≠ .leader ∨ rf.currentTerm ≠ c.term) :
    ∃ rsm', rsm.timeout k c (getState rf).1 (getState rf).2 =
      (rsm', { c with returned := some ⟨none, .errWrongLeader⟩ }) := by
  unfold RSM.timeout
  split_ifs with hdead hcond
  · exact ⟨_, rfl⟩
  · exact ⟨_, rfl⟩
  · exact ⟨_, rfl⟩
  · exfalso
    simp only [getState, decide_eq_true_eq] at hcond
    tauto

theorem registered_ahead {past : List (Transition (Cluster n (Command n R) (SnapshotData B))
    (RaftCluster.Label n (Command n R)))} (hg : Grounded machine past w) (h : Inv w) {k : ℕ}
    {c : Submission n R V} (hreg : (w.rsms c.server).pending.lookup c.index = some k)
    (hstays : RaftProvenance.Stays (service machine) w.raft c.server (some (.op c.op)) c.index
      c.term) : (w.rsms c.server).lastApplied < c.index := by
  by_contra hnot
  have hsync := hg.sync c.server
  obtain ⟨i, rest, hstates, hle⟩ := hsync.newest
  have hbehind := hsync.behind
  have hto : readTo (w.raft.procs c.server) = i := by simp [readTo, hstates]
  rcases (h.servers c.server).passed _ (mem_of_lookup hreg) (by dsimp only; omega) with
    ⟨o, v, ha⟩ | hforeign
  · have := (h.servers c.server).before _ _ _ ha
    dsimp only at this
    omega
  · -- the index cannot have gone to another command
    obtain ⟨z, hz, hc⟩ := hg.agree.agreed.mp hforeign
    obtain ⟨o, hmsg, ho⟩ := commandAt_eq_some.mp hc
    have hcommit := readTo_le hg c.server
    rw [hstays.committed (by omega) _ (.refl _) z hz o hmsg] at ho
    cases ho

theorem none_forgotten (round : Restores machine)
    (run : Run (stack n machine maxraftstate) tr w) {k : ℕ} {c : Submission n R V}
    (hk : w.calls[k]? = some c) (hlive : c.epoch = (w.raft.procs c.server).epoch)
    (hret : c.returned = none) : Ends machine maxraftstate w k ∨ Attended machine w k c := by
  obtain ⟨past, hg, h, hopen⟩ := inv_run round run
  have hlt := (List.getElem?_eq_some_iff.mp hk).choose
  have hself : ∀ d : Submission n R V, (w.calls.set k d)[k]? = some d :=
    fun d => List.getElem?_set_self hlt
  cases hch : c.ch with
  | some res =>
    left
    refine ⟨.receive k, { w with calls := w.calls.set k { c with ch := none, returned := some res } },
      .inl rfl, ?_, _, hself _, by simp⟩
    simp [Stack.exec, hk, hch, hlive, hret]
  | none =>
    by_cases hlost : (w.rsms c.server).dead = true ∨
        (w.raft.procs c.server).rf.state ≠ .leader ∨
        (w.raft.procs c.server).rf.currentTerm ≠ c.term
    · left
      obtain ⟨rsm, ht⟩ := timeout_ends k hlost
      refine ⟨.timeout k, { w.setRSM c.server rsm with
        calls := w.calls.set k { c with returned := some ⟨none, .errWrongLeader⟩ } }, .inr rfl, ?_, _,
        hself _, by simp⟩
      simp [Stack.exec, hk, hlive, hret, ht]
    · right
      simp only [not_or, not_not, Bool.not_eq_true] at hlost
      obtain ⟨halive, hlead, hterm⟩ := hlost
      have hstays := call_stays hg (List.mem_of_getElem? hk) hterm
      have hreg : (w.rsms c.server).pending.lookup c.index = some k := by
        rcases (h.calls k c hk).waits hlive hret hch halive with hlt | hreg
        · omega
        · exact hreg
      have hahead := registered_ahead hg h hreg hstays
      have huncompacted : (w.raft.procs c.server).rf.lastIncludedIndex < c.index := by
        rcases hopen (ticket c) (List.mem_map_of_mem (List.mem_of_getElem? hk)) hterm with hlt | hle
        · exact hlt
        · exact absurd hle (not_le.mpr hahead)
      exact ⟨hreg, hahead, hlead, hterm, huncompacted, hstays.held huncompacted, hstays⟩

end runs

theorem none_forgotten_started : ∃ r, replay (Stack.exec adder (-1)) (initial adder) []
      [.raft (.tick (0 : Fin 2)), .raft (.startElection 0), .raft (.sendRequestVote 0 1 1),
        .raft (.handle 0), .raft (.reply 0), .submit 0 7] = some r ∧
    ∃ c, r.2.calls[0]? = some c ∧ c.epoch = (r.2.raft.procs c.server).epoch ∧ c.returned = none ∧
      c.ch = none ∧ (Ends adder (-1) r.2 0 ∨ Attended adder r.2 0 c) := by
  have hsome : (replay (Stack.exec adder (-1)) (initial adder) []
      [.raft (.tick (0 : Fin 2)), .raft (.startElection 0), .raft (.sendRequestVote 0 1 1),
        .raft (.handle 0), .raft (.reply 0), .submit 0 7]).map (fun r => decide
        (∃ c ∈ r.2.calls[0]?, c.epoch = (r.2.raft.procs c.server).epoch ∧ c.returned = none ∧
          c.ch = none)) = some true := by decide +kernel
  obtain ⟨r, hr, hd⟩ := Option.map_eq_some_iff.mp hsome
  obtain ⟨c, hc, hlive, hret, hch⟩ := of_decide_eq_true hd
  exact ⟨r, hr, c, hc, hlive, hret, hch, none_forgotten (fun _ _ => rfl)
    (Run.replay (fun _ _ _ h => h) _ (.start rfl) hr) hc hlive hret⟩

end DistributedLabs.RsmWaiters
