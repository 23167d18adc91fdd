import DistributedLabs.RaftModel
import DistributedLabs.TermLedgerOverlay
import DistributedLabs.TermLedgerSteps

set_option autoImplicit false

/-!
# Compacted logs

`full` is the log from index 1 on as it would be had nothing been compacted. A
peer stores the part above `lastIncludedIndex` behind one boundary entry. Within
its bounds every access of the source reads `full`.
-/
namespace DistributedLabs.RaftShape
open RaftModel TermLedger

variable {n : ℕ} {C S : Type}

/-- The term at an index; index 0 is the empty log's boundary. -/
def termAt (l : List (LogEntry C)) : ℕ → ℕ
  | 0 => 0
  | i + 1 => (l[i]?.map LogEntry.term).getD 0

theorem termAt_of_getElem? {l : List (LogEntry C)} {i : ℕ} {e : LogEntry C} (h : l[i]? = some e) :
    termAt l (i + 1) = e.term := by
  simp [termAt, h]

theorem termAt_initial {l m : List (LogEntry C)} (h : l <+: m) {i : ℕ} (hi : i ≤ l.length) :
    termAt m i = termAt l i := by
  cases i with
  | zero => rfl
  | succ i =>
    obtain ⟨r, rfl⟩ := h
    simp only [termAt]
    rw [List.getElem?_append_left (by omega)]

theorem termAt_take (l : List (LogEntry C)) {i k : ℕ} (hi : i ≤ k) (hk : k ≤ l.length) :
    termAt (l.take k) i = termAt l i :=
  (termAt_initial ⟨_, List.take_append_drop _ _⟩ (by rw [List.length_take]; omega)).symm

theorem lastRank_eq_termAt (l : List (LogEntry C)) :
    lastRank LogEntry.term l = termAt l l.length := by
  rw [lastRank, List.getLast?_eq_getElem?]
  cases l with
  | nil => rfl
  | cons a l => rfl

/-- What a peer holds of the full log. -/
structure Shape (full : List (LogEntry C)) (rf : Raft n C S) : Prop where
  base : rf.lastIncludedIndex ≤ full.length
  log : rf.log = ⟨termAt full rf.lastIncludedIndex, none⟩ :: full.drop rf.lastIncludedIndex
  baseTerm : rf.lastIncludedTerm = termAt full rf.lastIncludedIndex

variable {full : List (LogEntry C)} {rf : Raft n C S}

theorem Shape.length (h : Shape full rf) :
    rf.log.length = full.length - rf.lastIncludedIndex + 1 := by
  rw [h.log]
  simp

theorem Shape.lastLogIndex (h : Shape full rf) : rf.lastLogIndex = full.length := by
  have hl := h.length
  have hb := h.base
  unfold Raft.lastLogIndex
  omega

theorem Shape.entryAt_base (h : Shape full rf) :
    rf.entryAt rf.lastIncludedIndex = some ⟨termAt full rf.lastIncludedIndex, none⟩ := by
  simp [Raft.entryAt, Raft.offset, h.log]

theorem Shape.entryAt_above (h : Shape full rf) {i : ℕ} (hi : rf.lastIncludedIndex < i) :
    rf.entryAt i = full[i - 1]? := by
  have hpos : i - rf.lastIncludedIndex = (i - rf.lastIncludedIndex - 1) + 1 := by omega
  have ho : rf.offset i = some (i - rf.lastIncludedIndex) := by
    simp [Raft.offset, Nat.le_of_lt hi]
  simp only [Raft.entryAt, ho, Option.bind_eq_bind, Option.bind_some]
  rw [h.log, hpos, List.getElem?_cons_succ, List.getElem?_drop]
  congr 1
  omega

theorem Shape.entryAt (h : Shape full rf) {i : ℕ} (hi : rf.lastIncludedIndex ≤ i)
    (hl : i ≤ full.length) : ∃ e, rf.entryAt i = some e ∧ e.term = termAt full i := by
  rcases hi.eq_or_lt with rfl | hlt
  · exact ⟨_, h.entryAt_base, rfl⟩
  · have hlen : i - 1 < full.length := by omega
    refine ⟨full[i - 1], ?_, ?_⟩
    · rw [h.entryAt_above hlt, List.getElem?_eq_getElem hlen]
    · have ht := termAt_of_getElem? (List.getElem?_eq_getElem hlen)
      rw [show i - 1 + 1 = i by omega] at ht
      exact ht.symm

theorem Shape.of_entryAt (h : Shape full rf) {i : ℕ} {e : LogEntry C} (he : rf.entryAt i = some e) :
    rf.lastIncludedIndex ≤ i ∧ i ≤ full.length ∧ e.term = termAt full i := by
  have hi : rf.lastIncludedIndex ≤ i := by
    by_contra hn
    simp [Raft.entryAt, Raft.offset, hn] at he
  have hl : i ≤ full.length := by
    rcases hi.eq_or_lt with rfl | hlt
    · exact h.base
    · rw [h.entryAt_above hlt] at he
      have := (List.getElem?_eq_some_iff.mp he).choose
      omega
  obtain ⟨x, hx, ht⟩ := h.entryAt hi hl
  rw [hx] at he
  cases he
  exact ⟨hi, hl, ht⟩

theorem Shape.compacted (h : Shape full rf) {i : ℕ} (hi : rf.lastIncludedIndex ≤ i)
    (hl : i ≤ full.length) : rf.compacted i = some (⟨termAt full i, none⟩ :: full.drop i) := by
  have hlen : i - rf.lastIncludedIndex ≤ rf.log.length := by
    rw [h.length]
    omega
  have hs : rf.compacted i = clearHead (rf.log.drop (i - rf.lastIncludedIndex)) := by
    simp [Raft.compacted, Raft.offset, hi, sliceFrom, hlen]
  rw [hs, h.log]
  rcases hi.eq_or_lt with rfl | hlt
  · simp [clearHead]
  · obtain ⟨j, rfl⟩ : ∃ j, i = rf.lastIncludedIndex + j + 1 := ⟨i - rf.lastIncludedIndex - 1, by omega⟩
    have hj : rf.lastIncludedIndex + j < full.length := by omega
    rw [show rf.lastIncludedIndex + j + 1 - rf.lastIncludedIndex = j + 1 by omega,
      List.drop_succ_cons, List.drop_drop, List.drop_eq_getElem_cons hj]
    simp only [clearHead, termAt, List.getElem?_eq_getElem hj, Option.map_some, Option.getD_some]

theorem Shape.rebase {i : ℕ} (hi : i ≤ full.length) {rf' : Raft n C S}
    (hl : rf'.log = ⟨termAt full i, none⟩ :: full.drop i) (hb : rf'.lastIncludedIndex = i)
    (ht : rf'.lastIncludedTerm = termAt full i) : Shape full rf' :=
  ⟨by rw [hb]; exact hi, by rw [hb]; exact hl, by rw [hb]; exact ht⟩

theorem Shape.entriesAfter (h : Shape full rf) {prev : ℕ} (hp : rf.lastIncludedIndex ≤ prev) :
    rf.entriesAfter prev = some (full.drop prev) := by
  have hlen := h.length
  have hbase := h.base
  unfold Raft.entriesAfter
  rw [h.lastLogIndex]
  split_ifs with hlt
  · have ho : rf.offset (prev + 1) = some (prev - rf.lastIncludedIndex + 1) := by
      simp only [Raft.offset, if_pos (hp.trans (Nat.le_succ prev)), Option.some.injEq]
      omega
    have hs : prev - rf.lastIncludedIndex + 1 ≤ rf.log.length := by omega
    simp only [ho, Option.bind_eq_bind, Option.bind_some, sliceFrom, if_pos hs]
    rw [h.log, List.drop_succ_cons, List.drop_drop]
    congr 2
    omega
  · rw [List.drop_eq_nil_of_le (by omega)]

theorem mergeEntries_rest {prev : ℕ} {es : List (LogEntry C)} {rf' : Raft n C S} {i : ℕ}
    (h : rf.mergeEntries prev i es = some rf') : rf' = { rf with log := rf'.log } := by
  induction es generalizing rf i with
  | nil =>
    cases h
    rfl
  | cons e es ih =>
    unfold Raft.mergeEntries at h
    dsimp only at h
    split_ifs at h
    · have hrest := ih h
      exact hrest
    · obtain ⟨x, _, h⟩ := Option.bind_eq_some_iff.mp h
      split_ifs at h
      · obtain ⟨_, _, h⟩ := Option.bind_eq_some_iff.mp h
        obtain ⟨_, _, h⟩ := Option.bind_eq_some_iff.mp h
        cases h
        rfl
      · exact ih h

/-- The loop over the entries lays them over the log behind `prevLogIndex`. -/
theorem mergeEntries_eq (prev i : ℕ) (es : List (LogEntry C)) (rf : Raft n C S)
    (hp : rf.lastIncludedIndex ≤ prev)
    (hk : prev - rf.lastIncludedIndex + 1 + i ≤ rf.log.length) :
    rf.mergeEntries prev i es = some { rf with
      log := rf.log.take (prev - rf.lastIncludedIndex + 1 + i) ++
        overlay LogEntry.term (rf.log.drop (prev - rf.lastIncludedIndex + 1 + i)) es } := by
  induction es generalizing rf i with
  | nil =>
    rw [overlay_nil, List.take_append_drop]
    rfl
  | cons e es ih =>
    have hll : rf.lastLogIndex = rf.lastIncludedIndex + rf.log.length - 1 := rfl
    unfold Raft.mergeEntries
    by_cases hlast : rf.lastLogIndex < prev + 1 + i
    · -- the entry lies behind the end of the log
      have hend : prev - rf.lastIncludedIndex + 1 + i = rf.log.length := by omega
      have hrec := ih (i + 1) { rf with log := rf.log ++ [e] } hp (by
        simp only [List.length_append, List.length_singleton]
        omega)
      simp only [hlast, ↓reduceIte, hrec]
      rw [← Nat.add_assoc, hend, List.drop_length, nil_overlay, List.take_length,
        List.take_of_length_le (by simp), List.drop_eq_nil_of_le (by simp), nil_overlay,
        List.append_assoc, List.singleton_append]
    · obtain ⟨k, hkd⟩ : ∃ k, k = prev - rf.lastIncludedIndex + 1 + i := ⟨_, rfl⟩
      have hlt : k < rf.log.length := by omega
      have ho : rf.offset (prev + 1 + i) = some k := by
        simp only [Raft.offset, show rf.lastIncludedIndex ≤ prev + 1 + i by omega, ↓reduceIte]
        congr 1
        omega
      have he : rf.entryAt (prev + 1 + i) = some rf.log[k] := by
        simp [Raft.entryAt, ho, hlt]
      have hdrop : rf.log.drop k = rf.log[k] :: rf.log.drop (k + 1) := List.drop_eq_getElem_cons hlt
      simp only [hlast, ↓reduceIte, he, ho, Option.bind_eq_bind, Option.bind_some, ← hkd]
      by_cases ht : rf.log[k].term = e.term
      · have hrec := ih (i + 1) rf hp (by omega)
        simp only [ht, ne_eq, not_true_eq_false, ↓reduceIte, hrec]
        rw [← Nat.add_assoc, ← hkd, hdrop]
        simp only [overlay, ht, ↓reduceIte]
        rw [List.take_succ_eq_append_getElem hlt, List.append_assoc, List.singleton_append]
      · rw [hdrop]
        simp [ht, sliceTo, overlay, Nat.le_of_lt hlt]

/-- An accepted message leaves the log that adopts what its sender held. -/
theorem Shape.mergeEntries (h : Shape full rf) {m : List (LogEntry C)} {prev : ℕ}
    (hp : rf.lastIncludedIndex ≤ prev) (hpl : prev ≤ full.length)
    (hmatch : Matching LogEntry.term full m) (he : full.take prev = m.take prev) :
    ∃ rf', rf.mergeEntries prev 0 (m.drop prev) = some rf' ∧ Shape (adopt full m) rf' ∧
      rf' = { rf with log := rf'.log } := by
  have hlen := h.length
  have hk : prev - rf.lastIncludedIndex + 1 + 0 ≤ rf.log.length := by omega
  refine ⟨_, mergeEntries_eq prev 0 (m.drop prev) rf hp hk, ?_, rfl⟩
  have hadopt := append_overlay hmatch he
  obtain ⟨j, rfl⟩ : ∃ j, prev = rf.lastIncludedIndex + j := ⟨prev - rf.lastIncludedIndex, by omega⟩
  have hpre : full.take (rf.lastIncludedIndex + j) <+: adopt full m := by
    rw [← hadopt]
    exact List.prefix_append _ _
  have hbase : termAt (adopt full m) rf.lastIncludedIndex = termAt full rf.lastIncludedIndex := by
    rw [termAt_initial hpre (by rw [List.length_take]; omega)]
    exact termAt_take full (by omega) hpl
  refine ⟨?_, ?_, ?_⟩
  · have := hpre.length_le
    rw [List.length_take] at this
    change rf.lastIncludedIndex ≤ _
    omega
  · change _ = ⟨termAt (adopt full m) rf.lastIncludedIndex, none⟩ ::
      (adopt full m).drop rf.lastIncludedIndex
    rw [hbase, ← hadopt]
    simp only [Nat.add_sub_cancel_left, Nat.add_zero]
    rw [h.log, List.take_succ_cons, List.drop_succ_cons, List.drop_drop, List.cons_append,
      List.drop_append_of_le_length (by rw [List.length_take]; omega), List.drop_take,
      Nat.add_sub_cancel_left]
  · change rf.lastIncludedTerm = _
    rw [hbase]
    exact h.baseTerm

end DistributedLabs.RaftShape
