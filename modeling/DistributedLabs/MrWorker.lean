import DistributedLabs.Grouping
import Mathlib.Data.String.Basic
import Mathlib.Data.List.Infix
import Mathlib.Algebra.Order.Group.Multiset

set_option autoImplicit false

/-!
# What a worker computes

The pure parts of `mr/worker.go` and `main/mrsequential.go`: the hash that spreads the
keys over the reduce tasks, the files that `doMap` writes, the loops that group the
sorted pairs and print one record for each key, and the names of the files. A file of
encoded pairs is modelled by the pairs that decoding gives back.
-/
namespace DistributedLabs.MrWorker
open Grouping

structure KeyValue where
  key : String
  value : String
deriving DecidableEq

def fnv32a (bytes : List UInt8) : UInt32 :=
  bytes.foldl (fun h b => (h ^^^ b.toUInt32) * 16777619) 2166136261

def ihash (key : String) : ℕ := (fnv32a key.toUTF8.data.toList &&& 0x7fffffff).toNat

def bucketOf (nReduce : ℕ) (key : String) : ℕ := ihash key % nReduce

def encodeAll (nReduce : ℕ) : List KeyValue → List (List KeyValue) → List (List KeyValue)
  | [], files => files
  | kv :: kvs, files =>
    encodeAll nReduce kvs (files.modify (bucketOf nReduce kv.key) (· ++ [kv]))

def mapFiles (nReduce : ℕ) (kvs : List KeyValue) : List (List KeyValue) :=
  encodeAll nReduce kvs (List.replicate nReduce [])

def record (key output : String) : String := key ++ " " ++ output ++ "\n"

/-- The loop of `doReduce` over the sorted pairs. The list is what is left from `i` on,
    and `j` starts at `i`. The fuel is the number of pairs. -/
def reduceLoop (reducef : String → List String → String) : ℕ → List KeyValue → String
  | 0, _ => ""
  | _ + 1, [] => ""
  | fuel + 1, kv :: rest =>
    let same := (kv :: rest).takeWhile fun x => x.key = kv.key
    let others := (kv :: rest).dropWhile fun x => x.key = kv.key
    record kv.key (reducef kv.key (same.map KeyValue.value)) ++ reduceLoop reducef fuel others

def sequentialLoop (reducef : String → List String → String) : ℕ → List KeyValue → String
  | 0, _ => ""
  | _ + 1, [] => ""
  | fuel + 1, kv :: rest =>
    -- here `j` starts at `i + 1`
    let same := rest.takeWhile fun x => x.key = kv.key
    let others := rest.dropWhile fun x => x.key = kv.key
    record kv.key (reducef kv.key (kv.value :: same.map KeyValue.value)) ++
      sequentialLoop reducef fuel others

def reduceText (reducef : String → List String → String) (sorted : List KeyValue) : String :=
  reduceLoop reducef sorted.length sorted

def sequentialText (reducef : String → List String → String) (sorted : List KeyValue) : String :=
  sequentialLoop reducef sorted.length sorted

/-- The order in which `sort.Slice` and `sort.Sort` may leave the pairs. -/
def SortOf (kvs sorted : List KeyValue) : Prop := sorted.Perm kvs ∧ Sorted KeyValue.key sorted

instance (kvs sorted : List KeyValue) : Decidable (SortOf kvs sorted) :=
  inferInstanceAs (Decidable (sorted.Perm kvs ∧
    sorted.Pairwise fun x y => x.key ≤ y.key))

def intermediateName (i r : ℕ) : String := "mr-" ++ toString i ++ "-" ++ toString r

def outputName (r : ℕ) : String := "mr-out-" ++ toString r

section names

theorem toString_toList (n : ℕ) : (toString n).toList = Nat.toDigits 10 n := by
  rw [Nat.toString_eq_ofList_toDigits, String.toList_ofList]

theorem isDigit_of_mem {n : ℕ} {c : Char} (h : c ∈ (toString n).toList) : c.isDigit = true := by
  rw [toString_toList] at h
  exact Nat.isDigit_of_mem_toDigits (by decide) (by decide) h

theorem dash_notMem (n : ℕ) : '-' ∉ (toString n).toList := fun h =>
  absurd (isDigit_of_mem h) (by decide)

theorem digits_inj {a b : ℕ} (h : (toString a).toList = (toString b).toList) : a = b := by
  rw [toString_toList, toString_toList] at h
  have hval := congrArg (fun ds => Nat.ofDigitChars 10 ds 0) h
  simpa only [Nat.ofDigitChars_ten_toDigits] using hval

theorem intermediateName_inj {i r j s : ℕ} (h : intermediateName i r = intermediateName j s) :
    i = j ∧ r = s := by
  have hl := congrArg String.toList h
  simp only [intermediateName, String.toList_append, List.append_assoc] at hl
  obtain ⟨hi, -, hr⟩ := (List.append_cons_inj_of_notMem (dash_notMem i) (dash_notMem r)).mp
    (List.append_cancel_left hl)
  exact ⟨digits_inj hi, digits_inj hr⟩

/-- After the common beginning one name has a digit or a dash, the other one a letter. -/
theorem intermediateName_ne_outputName (i r s : ℕ) : intermediateName i r ≠ outputName s := by
  intro h
  have hl := congrArg String.toList h
  simp only [intermediateName, outputName, String.toList_append, List.append_assoc] at hl
  have hl : ['m', 'r', '-'] ++ ((toString i).toList ++ '-' :: (toString r).toList) =
      ['m', 'r', '-'] ++ ('o' :: 'u' :: 't' :: '-' :: (toString s).toList) := hl
  have hl := List.append_cancel_left hl
  cases hd : (toString i).toList with
  | nil =>
    rw [hd] at hl
    exact absurd (List.cons.inj hl).1 (by decide)
  | cons c cs =>
    rw [hd] at hl
    have hc : c.isDigit = true := isDigit_of_mem (n := i) (by rw [hd]; exact List.mem_cons_self)
    rw [(List.cons.inj hl).1] at hc
    exact absurd hc (by decide)

theorem outputName_inj {r s : ℕ} (h : outputName r = outputName s) : r = s := by
  have hl := congrArg String.toList h
  simp only [outputName, String.toList_append] at hl
  exact digits_inj (List.append_cancel_left hl)

end names

section map
variable {nReduce : ℕ}

theorem encodeAll_get (kvs : List KeyValue) (files : List (List KeyValue)) (r : ℕ) :
    (encodeAll nReduce kvs files)[r]? =
      (files[r]?).map (· ++ kvs.filter fun kv => bucketOf nReduce kv.key = r) := by
  induction kvs generalizing files with
  | nil => simp [encodeAll]
  | cons kv kvs ih =>
    unfold encodeAll
    rw [ih, List.getElem?_modify]
    cases files[r]? with
    | none => rfl
    | some f =>
      by_cases hb : bucketOf nReduce kv.key = r <;> simp [hb]

theorem mapFiles_get (kvs : List KeyValue) (r : ℕ) : (mapFiles nReduce kvs)[r]? =
    if r < nReduce then some (kvs.filter fun kv => bucketOf nReduce kv.key = r) else none := by
  unfold mapFiles
  rw [encodeAll_get, List.getElem?_replicate]
  split_ifs <;> simp

end map

section reduce
variable {reducef : String → List String → String}

/-- The two loops print the same: the pair at `i` always has its own key. -/
theorem sequentialText_eq (sorted : List KeyValue) :
    sequentialText reducef sorted = reduceText reducef sorted := by
  have hloop : ∀ fuel l, sequentialLoop reducef fuel l = reduceLoop reducef fuel l := by
    intro fuel
    induction fuel with
    | zero => exact fun _ => rfl
    | succ fuel ih =>
      intro l
      cases l with
      | nil => rfl
      | cons kv rest => simp [sequentialLoop, reduceLoop, ih]
  exact hloop _ _

/-- The lines of a text. A newline ends a line; what follows the last one is a line if
    there is something. -/
def lines : List Char → List (List Char)
  | [] => []
  | c :: cs =>
    if c = '\n' then [] :: lines cs
    else match lines cs with
      | [] => [[c]]
      | l :: ls => (c :: l) :: ls

def linesOf (text : String) : Multiset String := ((lines text.toList).map String.ofList : List String)

theorem lines_ne_nil (c : Char) (cs : List Char) : lines (c :: cs) ≠ [] := by
  unfold lines
  split_ifs
  · simp
  · split <;> simp

theorem lines_append (cs ds : List Char) :
    lines (cs ++ '\n' :: ds) = lines (cs ++ ['\n']) ++ lines ds := by
  induction cs with
  | nil => simp [lines]
  | cons c cs ih =>
    by_cases hc : c = '\n'
    · simp [lines, hc, ih]
    · rw [List.cons_append, List.cons_append, lines, if_neg hc, lines, if_neg hc, ih]
      cases hl : lines (cs ++ ['\n']) with
      | nil => cases cs <;> exact absurd hl (lines_ne_nil _ _)
      | cons l ls => rfl

theorem linesOf_record_append (key output text : String) :
    linesOf (record key output ++ text) = linesOf (record key output) + linesOf text := by
  have hrecord : (record key output).toList = (key ++ " " ++ output).toList ++ ['\n'] :=
    String.toList_append
  unfold linesOf
  rw [String.toList_append, hrecord, List.append_assoc, List.singleton_append, lines_append,
    List.map_append, Multiset.coe_add]

def keyLines (reducef : String → List String → String) (key : String) (group : List KeyValue) :
    Multiset String :=
  linesOf (record key (reducef key (group.map KeyValue.value)))

/-- `doReduce` prints one record for each key, made from all its values. -/
theorem linesOf_reduceText {sorted : List KeyValue} (h : Sorted KeyValue.key sorted) :
    linesOf (reduceText reducef sorted) = total KeyValue.key (keyLines reducef) sorted := by
  have hloop : ∀ fuel l, l.length ≤ fuel → Sorted KeyValue.key l →
      linesOf (reduceLoop reducef fuel l) = total KeyValue.key (keyLines reducef) l := by
    intro fuel
    induction fuel with
    | zero =>
      intro l hl _
      rw [List.length_eq_zero_iff.mp (Nat.le_zero.mp hl)]
      rfl
    | succ fuel ih =>
      intro l hl hs
      cases l with
      | nil => rfl
      | cons kv rest =>
        obtain ⟨htake, hdrop⟩ := hs.takeWhile_eq
        have hgroup : (kv :: rest).takeWhile (fun x => x.key = kv.key) =
            group KeyValue.key kv.key (kv :: rest) := by
          simp [group, htake]
        have hothers : (kv :: rest).dropWhile (fun x => x.key = kv.key) =
            (kv :: rest).filter fun x => x.key ≠ kv.key := by
          simp [hdrop]
        have hlen : ((kv :: rest).filter fun x => x.key ≠ kv.key).length ≤ fuel := by
          have hle := List.length_filter_le (fun x => decide (x.key ≠ kv.key)) rest
          simp only [List.length_cons] at hl
          simpa using Nat.le_trans hle (Nat.le_of_succ_le_succ hl)
        rw [reduceLoop, hgroup, hothers, linesOf_record_append, ih _ hlen (hs.filter _),
          total_peel (l := kv :: rest) (k := kv.key) (by simp)]
        rfl
  exact hloop _ _ (Nat.le_refl _) h

end reduce
end DistributedLabs.MrWorker
