/-!
# Tables

A table holds a value for each of finitely many keys. Every change goes through `Table.alter`,
whose law `Table.get?_alter` says what is found under each key afterwards. Two kinds of tables
have operations of their own: those whose values are lists that items are filed in, and those
whose values are counts. A list without items and a count of zero are not kept.
-/

namespace Ontograph

/-- A finite map. -/
structure Table (κ ν : Type) where
  entries : List (κ × ν)
  nodup_keys : (entries.map Prod.fst).Nodup
  deriving DecidableEq

namespace Table

variable {κ ν : Type}

/-- The table without entries. -/
def empty : Table κ ν := ⟨[], List.nodup_nil⟩

instance : EmptyCollection (Table κ ν) := ⟨empty⟩
instance : Inhabited (Table κ ν) := ⟨∅⟩

/-- The keys, each once. -/
def keys (T : Table κ ν) : List κ := T.entries.map Prod.fst

/-- The number of keys. -/
def size (T : Table κ ν) : Nat := T.entries.length

variable [DecidableEq κ] {T : Table κ ν} {k j : κ}

/-- The value under a key. -/
def get? (T : Table κ ν) (k : κ) : Option ν := T.entries.lookup k

/-- An empty table has no entries. -/
@[simp] theorem get?_empty : (∅ : Table κ ν).get? k = none := rfl

/-- The keys are those with a value. -/
theorem mem_keys : k ∈ T.keys ↔ (T.get? k).isSome := by
  simp only [keys, get?]
  induction T.entries with
  | nil => simp
  | cons e es ih =>
    obtain ⟨i, v⟩ := e
    by_cases h : k = i
    · simp [h]
    · rw [List.lookup_cons, beq_false_of_ne h, List.map_cons, List.mem_cons, ih]
      simp [h]

/-! ## Changing an entry -/

/-- The entries under other keys. -/
def others (T : Table κ ν) (k : κ) : List (κ × ν) := T.entries.filter fun e => decide (e.1 ≠ k)

/-- Changes what is under a key. -/
def alter (T : Table κ ν) (k : κ) (f : Option ν → Option ν) : Table κ ν where
  entries := T.others k ++ (f (T.get? k)).toList.map (k, ·)
  nodup_keys := by
    rw [List.map_append, List.nodup_append]
    refine ⟨T.nodup_keys.sublist (List.filter_sublist.map _), ?_, ?_⟩
    · cases f (T.get? k) <;> simp
    · intro a ha b hb
      obtain ⟨e, he, rfl⟩ := List.mem_map.1 ha
      have hk : e.1 ≠ k := by simpa using (List.mem_filter.1 he).2
      obtain ⟨_, hb', rfl⟩ := List.mem_map.1 hb
      obtain ⟨_, _, rfl⟩ := List.mem_map.1 hb'
      exact hk

/-- Without the entry of a key, the others are found as before. -/
theorem lookup_others : (T.others k).lookup j = if j = k then none else T.get? j := by
  simp only [others, get?]
  induction T.entries with
  | nil => simp
  | cons e es ih =>
    obtain ⟨i, v⟩ := e
    by_cases hk : i = k
    · rw [List.filter_cons_of_neg (by simpa using hk), ih]
      by_cases hj : j = k
      · simp [hj]
      · have hi : (j == i) = false := by simpa [hk] using hj
        simp [List.lookup_cons, hj, hi]
    · rw [List.filter_cons_of_pos (by simpa using hk), List.lookup_cons, List.lookup_cons, ih]
      by_cases hi : j = i
      · simp [hi, hk]
      · have hi' : (j == i) = false := by simpa using hi
        simp [hi']

/-- A change is seen under its key and nowhere else. -/
theorem get?_alter {f : Option ν → Option ν} :
    (T.alter k f).get? j = if j = k then f (T.get? k) else T.get? j := by
  have h : (T.alter k f).get? j =
      (T.others k ++ (f (T.get? k)).toList.map (k, ·)).lookup j := rfl
  rw [h, List.lookup_append, lookup_others]
  by_cases hj : j = k
  · cases hf : f (T.get? k) <;> simp [hj]
  · have hk : (j == k) = false := beq_false_of_ne hj
    cases hf : f (T.get? k) <;> simp [hj, List.lookup_cons, hk]

/-- Takes out a key. -/
def erase (T : Table κ ν) (k : κ) : Table κ ν := T.alter k fun _ => none

/-- A key taken out has no value, and the others keep theirs. -/
@[simp] theorem get?_erase : (T.erase k).get? j = if j = k then none else T.get? j := get?_alter

/-! ## Tables of lists -/

section Buckets

variable {T : Table κ (List ν)}

/-- The items under a key. -/
def bucket (T : Table κ (List ν)) (k : κ) : List ν := (T.get? k).getD []

/-- The buckets of an empty table are empty. -/
@[simp] theorem bucket_empty : (∅ : Table κ (List ν)).bucket k = [] := rfl

/-- Puts a list of items under a key. -/
def setBucket (T : Table κ (List ν)) (k : κ) (vs : List ν) : Table κ (List ν) :=
  T.alter k fun _ => if vs.isEmpty then none else some vs

/-- A list of items is found under its key. -/
@[simp] theorem bucket_setBucket {vs : List ν} :
    (T.setBucket k vs).bucket j = if j = k then vs else T.bucket j := by
  rw [bucket, setBucket, get?_alter]
  by_cases hj : j = k
  · cases vs <;> simp [hj]
  · simp [hj, bucket]

/-- Erasing a key empties its bucket and no other one. -/
@[simp] theorem bucket_erase : (T.erase k).bucket j = if j = k then [] else T.bucket j := by
  rw [bucket, get?_erase]
  split <;> simp [bucket]

variable [DecidableEq ν]

/-- Adds an item under a key, unless it is there. -/
def file (T : Table κ (List ν)) (k : κ) (v : ν) : Table κ (List ν) :=
  if v ∈ T.bucket k then T else T.setBucket k (T.bucket k ++ [v])

/-- Filing adds one item under one key. -/
@[simp] theorem mem_bucket_file {v w : ν} :
    w ∈ (T.file k v).bucket j ↔ w ∈ T.bucket j ∨ j = k ∧ w = v := by
  unfold file
  split
  case isTrue h =>
    refine ⟨Or.inl, fun hw => hw.elim id ?_⟩
    rintro ⟨rfl, rfl⟩
    exact h
  case isFalse =>
    rw [bucket_setBucket]
    by_cases hj : j = k <;> simp [hj]

/-- Takes an item away from under a key. -/
def unfile (T : Table κ (List ν)) (k : κ) (v : ν) : Table κ (List ν) :=
  T.setBucket k ((T.bucket k).filter fun w => decide (w ≠ v))

/-- Unfiling takes one item away from under one key. -/
@[simp] theorem mem_bucket_unfile {v w : ν} :
    w ∈ (T.unfile k v).bucket j ↔ w ∈ T.bucket j ∧ ¬ (j = k ∧ w = v) := by
  rw [unfile, bucket_setBucket]
  by_cases hj : j = k <;> simp [hj]

end Buckets

/-! ## Tables of counts -/

section Counts

variable {T : Table κ Nat}

/-- The count of a key. -/
def count (T : Table κ Nat) (k : κ) : Nat := (T.get? k).getD 0

/-- An empty table counts zero for every key. -/
@[simp] theorem count_empty : (∅ : Table κ Nat).count k = 0 := rfl

/-- Sets the count of a key. -/
def setCount (T : Table κ Nat) (k : κ) (n : Nat) : Table κ Nat :=
  T.alter k fun _ => if n = 0 then none else some n

/-- A count is found under its key. -/
@[simp] theorem count_setCount {n : Nat} :
    (T.setCount k n).count j = if j = k then n else T.count j := by
  rw [count, setCount, get?_alter]
  by_cases hj : j = k
  · by_cases hn : n = 0 <;> simp [hj, hn]
  · simp [hj, count]

/-- Counts a key once more. -/
def increment (T : Table κ Nat) (k : κ) : Table κ Nat := T.setCount k (T.count k + 1)

/-- Counts a key once less. -/
def decrement (T : Table κ Nat) (k : κ) : Table κ Nat := T.setCount k (T.count k - 1)

end Counts

end Table

end Ontograph
