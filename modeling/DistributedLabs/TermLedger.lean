import Mathlib.Data.Finset.Card
import Mathlib.Data.List.Infix
import Mathlib.Logic.Function.Basic
import Mathlib.Tactic.Common

set_option autoImplicit false

/-!
# Logs replicated under numbered terms

The ledger is the whole history of a group of nodes that replicate one log under
leaders of increasing terms: what each node holds, the log of every leader there
has ever been, how far each node has acknowledged each leader, and the log each
voter held when it voted. Every leader's log only grows. Nothing here refers to
messages, storage or compaction.
-/
namespace DistributedLabs.TermLedger
open Classical

/-- `start` is what the leader held when it was elected. -/
structure Leader (V E : Type) where
  who : V
  start : List E
  log : List E

structure Ledger (V E : Type) where
  term : V → ℕ
  log : V → List E
  lead : ℕ → Option (Leader V E)
  ack : V → ℕ → ℕ
  vote : V → ℕ → Option (V × List E)

variable {V E : Type}

structure Quorums (V : Type) where
  votes : Finset V → Prop
  commits : Finset V → Prop
  meet : ∀ A B, votes A → commits B → ∃ v, v ∈ A ∧ v ∈ B

def empty : Ledger V E := ⟨fun _ => 0, fun _ => [], fun _ => none, fun _ _ => 0, fun _ _ => none⟩

def lastRank (rank : E → ℕ) (l : List E) : ℕ := (l.getLast?.map rank).getD 0

def UpToDate (rank : E → ℕ) (l m : List E) : Prop :=
  lastRank rank m < lastRank rank l ∨ (lastRank rank m = lastRank rank l ∧ m.length ≤ l.length)

noncomputable section

/-- A node that is sent `m` keeps its log if `m` is already in it and takes `m` otherwise. -/
def adopt (l m : List E) : List E := if m <+: l then l else m

def put {β : Type} (f : V → ℕ → β) (v : V) (t : ℕ) (x : β) : V → ℕ → β :=
  fun w u => if w = v ∧ u = t then x else f w u

def Ledger.advance (g : Ledger V E) (v : V) (t : ℕ) : Ledger V E :=
  { g with term := Function.update g.term v t }

def Ledger.castVote (g : Ledger V E) (v : V) (t : ℕ) (c : V) : Ledger V E :=
  match g.vote v t with
  | some _ => g
  | none => { g with vote := put g.vote v t (some (c, g.log v)) }

def Ledger.elect (g : Ledger V E) (c : V) (t : ℕ) : Ledger V E :=
  { g with
    lead := Function.update g.lead t (some ⟨c, g.log c, g.log c⟩)
    ack := put g.ack c t (g.log c).length }

def Ledger.extend (g : Ledger V E) (c : V) (t : ℕ) (e : E) : Ledger V E :=
  match g.lead t with
  | none => g
  | some ld =>
    { g with
      lead := Function.update g.lead t (some { ld with log := ld.log ++ [e] })
      log := Function.update g.log c (ld.log ++ [e])
      ack := put g.ack c t (ld.log.length + 1) }

def Ledger.accept (g : Ledger V E) (v : V) (t : ℕ) (m : List E) : Ledger V E :=
  { g with
    log := Function.update g.log v (adopt (g.log v) m)
    ack := put g.ack v t (max (g.ack v t) m.length) }

end

inductive Act (rank : E → ℕ) (Q : Quorums V) (g : Ledger V E) : Ledger V E → Prop where
  | advance (v : V) (t : ℕ) (ht : g.term v ≤ t) : Act rank Q g (g.advance v t)
  | castVote (v : V) (t : ℕ) (c : V) (ht : g.term v = t) : Act rank Q g (g.castVote v t c)
  | elect (c : V) (t : ℕ) (A : Finset V) (ht : g.term c = t) (hl : g.lead t = none)
      (hA : Q.votes A)
      (hv : ∀ v ∈ A, ∃ l, g.vote v t = some (c, l) ∧ UpToDate rank (g.log c) l) :
      Act rank Q g (g.elect c t)
  | extend (c : V) (t : ℕ) (e : E) (ld : Leader V E) (ht : g.term c = t)
      (hl : g.lead t = some ld) (hw : ld.who = c) (he : rank e = t) :
      Act rank Q g (g.extend c t e)
  | accept (v : V) (t : ℕ) (m : List E) (ld : Leader V E) (ht : g.term v = t)
      (hl : g.lead t = some ld) (hw : ld.who ≠ v) (hm : m <+: ld.log) :
      Act rank Q g (g.accept v t m)

/-- Each entry stands where the leader of its term has it, behind the same entries. -/
def Backed (rank : E → ℕ) (g : Ledger V E) (l : List E) : Prop :=
  ∀ k e, l[k]? = some e → ∃ ld, g.lead (rank e) = some ld ∧ l.take (k + 1) <+: ld.log

/-- `p` is in `target`, provided every leader strictly between `t` and `b` has `p`. -/
def Carried (g : Ledger V E) (t b : ℕ) (p target : List E) : Prop :=
  (∀ u ld, t < u → u < b → g.lead u = some ld → p <+: ld.log) → p <+: target

/-- What a vote cast in term `b` with log `l` still shows of earlier acknowledgements. -/
def Remembers (g : Ledger V E) (v : V) (b : ℕ) (l : List E) : Prop :=
  ∀ t ld k, t < b → g.lead t = some ld → k ≤ g.ack v t → Carried g t b (ld.log.take k) l

structure Valid (rank : E → ℕ) (Q : Quorums V) (g : Ledger V E) : Prop where
  backed_log : ∀ v, Backed rank g (g.log v)
  backed_lead : ∀ t ld, g.lead t = some ld → Backed rank g ld.log
  backed_vote : ∀ v t x, g.vote v t = some x → Backed rank g x.2
  start_initial : ∀ t ld, g.lead t = some ld → ld.start <+: ld.log
  start_rank : ∀ t ld, g.lead t = some ld → ∀ e ∈ ld.start, rank e < t
  lead_rank : ∀ t ld, g.lead t = some ld → ∀ e ∈ ld.log, rank e ≤ t
  log_rank : ∀ v, ∀ e ∈ g.log v, rank e ≤ g.term v
  lead_term : ∀ t ld, g.lead t = some ld → t ≤ g.term ld.who
  lead_log : ∀ t ld, g.lead t = some ld → g.term ld.who = t → g.log ld.who = ld.log
  ack_term : ∀ v t, 0 < g.ack v t → t ≤ g.term v
  ack_lead : ∀ v t, 0 < g.ack v t → ∃ ld, g.lead t = some ld ∧ g.ack v t ≤ ld.log.length
  vote_term : ∀ v t x, g.vote v t = some x → t ≤ g.term v
  kept : ∀ v, Remembers g v (g.term v + 1) (g.log v)
  cast : ∀ v t x, g.vote v t = some x → g.lead t = none → Remembers g v t x.2
  won : ∀ t ld, g.lead t = some ld → ∃ A, Q.votes A ∧ ∀ v ∈ A, ∃ l,
    g.vote v t = some (ld.who, l) ∧ UpToDate rank ld.start l ∧ Remembers g v t l

structure Grows (g h : Ledger V E) : Prop where
  lead : ∀ t ld, g.lead t = some ld → ∃ ld', h.lead t = some ld' ∧ ld'.who = ld.who ∧
    ld'.start = ld.start ∧ ld.log <+: ld'.log
  ack : ∀ v t, g.ack v t ≤ h.ack v t
  vote : ∀ v t x, g.vote v t = some x → h.vote v t = some x
  term : ∀ v, g.term v ≤ h.term v

theorem Grows.refl (g : Ledger V E) : Grows g g :=
  ⟨fun _ ld h => ⟨ld, h, rfl, rfl, List.prefix_refl _⟩, fun _ _ => le_refl _, fun _ _ _ h => h,
    fun _ => le_refl _⟩

theorem Grows.trans {g h k : Ledger V E} (a : Grows g h) (b : Grows h k) : Grows g k := by
  refine ⟨?_, fun v t => (a.ack v t).trans (b.ack v t),
    fun v t x hx => b.vote v t x (a.vote v t x hx), fun v => (a.term v).trans (b.term v)⟩
  intro t ld hl
  obtain ⟨ld', h', w', s', p'⟩ := a.lead t ld hl
  obtain ⟨ld'', h'', w'', s'', p''⟩ := b.lead t ld' h'
  exact ⟨ld'', h'', w''.trans w', s''.trans s', p'.trans p''⟩

theorem Backed.mono {rank : E → ℕ} {g h : Ledger V E} (hg : Grows g h) {l : List E}
    (hl : Backed rank g l) : Backed rank h l := by
  intro k e he
  obtain ⟨ld, hd, hp⟩ := hl k e he
  obtain ⟨ld', hd', _, _, hp'⟩ := hg.lead _ _ hd
  exact ⟨ld', hd', hp.trans hp'⟩

theorem Backed.restrict {rank : E → ℕ} {g : Ledger V E} {l m : List E}
    (hm : Backed rank g m) (h : l <+: m) : Backed rank g l := by
  intro k e he
  obtain ⟨r, rfl⟩ := h
  have hk : k < l.length := (List.getElem?_eq_some_iff.mp he).choose
  obtain ⟨ld, hd, hp⟩ := hm k e (by rw [List.getElem?_append_left hk]; exact he)
  rw [List.take_append_of_le_length (by omega)] at hp
  exact ⟨ld, hd, hp⟩

/-- Log matching: two backed logs with equal terms at a position agree up to it. -/
theorem Backed.matching {rank : E → ℕ} {g : Ledger V E} {l m : List E}
    (hl : Backed rank g l) (hm : Backed rank g m) {k : ℕ} {a b : E}
    (ha : l[k]? = some a) (hb : m[k]? = some b) (hr : rank a = rank b) :
    l.take (k + 1) = m.take (k + 1) := by
  obtain ⟨ld, hd, hp⟩ := hl k a ha
  obtain ⟨ld', hd', hp'⟩ := hm k b hb
  rw [hr, hd'] at hd
  cases hd
  have la : k < l.length := (List.getElem?_eq_some_iff.mp ha).choose
  have lb : k < m.length := (List.getElem?_eq_some_iff.mp hb).choose
  rw [List.prefix_iff_eq_take] at hp hp'
  rw [hp, hp']
  simp only [List.length_take]
  congr 1
  omega

theorem Backed.sorted {rank : E → ℕ} {Q : Quorums V} {g : Ledger V E} (hv : Valid rank Q g)
    {l : List E} (hl : Backed rank g l) {i j : ℕ} {a b : E} (ha : l[i]? = some a)
    (hb : l[j]? = some b) (hij : i ≤ j) : rank a ≤ rank b := by
  obtain ⟨ld, hd, hp⟩ := hl j b hb
  apply hv.lead_rank _ _ hd
  apply hp.subset
  apply List.mem_of_getElem? (i := i)
  rw [List.getElem?_take]
  simp only [show i < j + 1 by omega, ↓reduceIte]
  exact ha

end DistributedLabs.TermLedger
