import Caminus.Snapshot.Parallel
import Mathlib.Algebra.Order.Group.Nat
import Mathlib.Data.List.GetD

/-!
# Cutting a table into chunks

The loop of `ParallelSnapshotter::new` (`src/snapshot/parallel.rs`) in natural numbers. As long as no
machine operation overflows, the state after `i` passes is known (`Reached`), which gives both results:
the chunks partition the keys (`partitions`), and the loop is total exactly on the arguments for which
the row count, rounded up to whole chunks, leaves room for one more key (`chunkingTotal_iff`).
-/

namespace Caminus.ParallelSnapshotter

/-- The number of chunks: the rows divided by the chunk size, rounded up. -/
def numChunks (totalRows chunkSize : UInt64) : ℕ :=
  (totalRows.toNat + chunkSize.toNat - 1) / chunkSize.toNat

/-- The key lies in the chunk, both ends of its range included. -/
def holdsKey (c : ChunkRange) (key : ℕ) : Prop := c.minKey.toNat ≤ key ∧ key ≤ c.maxKey.toNat

/-- A list of chunks that cuts the keys from `1` to `totalRows` into pieces of `chunkSize`: each
piece starts behind the one before, all but the last are full, and every key is in exactly one. -/
structure Partitions (totalRows chunkSize : UInt64) (chunks : List ChunkRange) : Prop where
  count : chunks.length = numChunks totalRows chunkSize
  first : ∀ c, chunks[0]? = some c → c.minKey.toNat = 1
  next : ∀ i c d, chunks[i]? = some c → chunks[i + 1]? = some d →
    d.minKey.toNat = c.maxKey.toNat + 1
  last : ∀ c, chunks.getLast? = some c → c.maxKey = totalRows
  nonempty : ∀ c ∈ chunks, c.minKey.toNat ≤ c.maxKey.toNat
  size : ∀ c ∈ chunks, c.maxKey.toNat + 1 ≤ c.minKey.toNat + chunkSize.toNat
  full : ∀ i c, chunks[i]? = some c → i + 1 < chunks.length →
    c.maxKey.toNat + 1 = c.minKey.toNat + chunkSize.toNat
  ids : chunks.map (fun c => c.chunkId.toNat) = List.range chunks.length
  pending : ∀ c ∈ chunks, c.status = .pending
  covers : ∀ key, 1 ≤ key ∧ key ≤ totalRows.toNat ↔ ∃ c ∈ chunks, holdsKey c key
  once : ∀ (key i j : ℕ) (c d : ChunkRange), chunks[i]? = some c → chunks[j]? = some d →
    holdsKey c key → holdsKey d key → i = j

section

variable (totalRows chunkSize : UInt64)

/-- The state of the loop after a number of passes, whether or not the loop would still make them. -/
def atPass (k : ℕ) : Chunking := (chunkPass totalRows chunkSize)^[k] ⟨[], 1, 0⟩

/-- The loop makes pass number `k`, counted from `0`. -/
def Performed (k : ℕ) : Prop := ∀ i ≤ k, (atPass totalRows chunkSize i).minKey ≤ totalRows

/-- The last key of the chunk that a pass adds. -/
def passMax (s : Chunking) : UInt64 := min (s.minKey + chunkSize - 1) totalRows

/-- No machine operation of a pass leaves its type: neither the sums of keys nor the count of the
ids. -/
structure NoOverflow (s : Chunking) : Prop where
  add : s.minKey.toNat + chunkSize.toNat < 2 ^ 64
  sub : 1 ≤ s.minKey.toNat + chunkSize.toNat
  next : (passMax totalRows chunkSize s).toNat + 1 < 2 ^ 64
  id : s.chunkId.toNat + 1 < 2 ^ 32

/-- The loop ends after at most as many passes as there are rows, and no pass overflows, so that a
release build and a debug build do the same. -/
structure ChunkingTotal : Prop where
  ends : (chunkLoop totalRows chunkSize (totalRows.toNat + 1) ⟨[], 1, 0⟩).isSome
  noOverflow : ∀ k, Performed totalRows chunkSize k →
    NoOverflow totalRows chunkSize (atPass totalRows chunkSize k)

/-- The chunk that pass number `j` adds, in closed form: it begins after the `j` chunks before it
and ends with its last row or with the last row of the table. -/
def chunkAt (j : ℕ) : ChunkRange where
  chunkId := UInt32.ofNat j
  minKey := UInt64.ofNat (j * chunkSize.toNat + 1)
  maxKey := UInt64.ofNat (min ((j + 1) * chunkSize.toNat) totalRows.toNat)
  status := .pending

/-- The chunks of all passes, in closed form: what the loop is compared with. -/
def allChunks : List ChunkRange :=
  (List.range (numChunks totalRows chunkSize)).map (chunkAt totalRows chunkSize)

/-- The state after `i` passes, none of which overflows: the next key, the next id and the chunks so
far in terms of `i` alone. -/
structure Reached (i : ℕ) (s : Chunking) : Prop where
  minKey : s.minKey.toNat = min (i * chunkSize.toNat) totalRows.toNat + 1
  chunkId : s.chunkId.toNat = i
  chunks : s.chunks = (List.range i).map (chunkAt totalRows chunkSize)

end

variable {totalRows chunkSize : UInt64}

/-! ## One pass -/

/-- Another chunk is needed as long as the whole ones do not hold all rows. -/
theorem lt_numChunks_iff (hsize : 1 ≤ chunkSize.toNat) {i : ℕ} :
    i < numChunks totalRows chunkSize ↔ i * chunkSize.toNat < totalRows.toNat := by
  rw [numChunks, ← Nat.succ_le_iff, Nat.le_div_iff_mul_le hsize, Nat.succ_mul]
  omega

/-- The minimum of two machine integers is that of their values. -/
theorem toNat_min (a b : UInt64) : (min a b).toNat = min a.toNat b.toNat := by
  rw [Std.min_eq_if, Nat.min_def]
  simp only [UInt64.le_iff_toNat_le]
  split_ifs
  · rfl
  · rfl

/-- Without overflow the last key of a pass is computed as in the natural numbers. -/
theorem NoOverflow.toNat_passMax {s : Chunking} (h : NoOverflow totalRows chunkSize s) :
    (passMax totalRows chunkSize s).toNat =
      min (s.minKey.toNat + chunkSize.toNat - 1) totalRows.toNat := by
  have hadd : (s.minKey + chunkSize).toNat = s.minKey.toNat + chunkSize.toNat := by
    rw [UInt64.toNat_add, Nat.mod_eq_of_lt h.add]
  have hle : 1 ≤ s.minKey + chunkSize := by
    rw [UInt64.le_iff_toNat_le, hadd]
    exact h.sub
  rw [passMax, toNat_min, UInt64.toNat_sub_of_le _ _ hle, hadd]
  rfl

/-- The state that the loop starts from. -/
theorem reached_zero : Reached totalRows chunkSize 0 ⟨[], 1, 0⟩ where
  minKey := by
    rw [Nat.zero_mul, Nat.zero_min]
    rfl
  chunkId := rfl
  chunks := rfl

/-- The loop goes on exactly while rows are left, said in natural numbers without wrapping. -/
theorem Reached.minKey_le_iff {i : ℕ} {s : Chunking} (h : Reached totalRows chunkSize i s) :
    s.minKey ≤ totalRows ↔ i * chunkSize.toNat < totalRows.toNat := by
  rw [UInt64.le_iff_toNat_le, h.minKey]
  omega

/-- While rows are left, the passes so far have added whole chunks. -/
theorem Reached.minKey_of_lt {i : ℕ} {s : Chunking} (h : Reached totalRows chunkSize i s)
    (hmore : i * chunkSize.toNat < totalRows.toNat) :
    s.minKey.toNat = i * chunkSize.toNat + 1 := by
  rw [h.minKey, Nat.min_eq_left hmore.le]

/-- A pass without overflow leads from the `i`-th state to the next. -/
theorem Reached.pass {i : ℕ} {s : Chunking} (h : Reached totalRows chunkSize i s)
    (hmore : i * chunkSize.toNat < totalRows.toNat) (hfits : NoOverflow totalRows chunkSize s) :
    Reached totalRows chunkSize (i + 1) (chunkPass totalRows chunkSize s) := by
  have hmin := h.minKey_of_lt hmore
  -- as rows are left, the first key is that of the `i`-th whole chunk, and so the last key is a
  -- multiple of the size, cut off at the last row
  have hmax : (passMax totalRows chunkSize s).toNat =
      min ((i + 1) * chunkSize.toNat) totalRows.toNat := by
    rw [hfits.toNat_passMax, hmin, Nat.add_mul, Nat.one_mul]
    congr 1
    omega
  have hchunk : (⟨s.chunkId, s.minKey, passMax totalRows chunkSize s, .pending⟩ : ChunkRange) =
      chunkAt totalRows chunkSize i := by
    rw [chunkAt, ← hmin, ← hmax, ← h.chunkId, UInt32.ofNat_toNat, UInt64.ofNat_toNat,
      UInt64.ofNat_toNat]
  refine ⟨?_, ?_, ?_⟩
  -- the two increments do not wrap around
  · show (passMax totalRows chunkSize s + 1).toNat = _
    rw [UInt64.toNat_add, ← hmax]
    exact Nat.mod_eq_of_lt hfits.next
  · show (s.chunkId + 1).toNat = _
    rw [UInt32.toNat_add, h.chunkId]
    have hid := hfits.id
    rw [h.chunkId] at hid
    exact Nat.mod_eq_of_lt hid
  · show s.chunks ++ [⟨s.chunkId, s.minKey, passMax totalRows chunkSize s, .pending⟩] = _
    rw [hchunk, h.chunks, List.range_succ, List.map_append]
    rfl

/-! ## All passes -/

/-- One more pass is made on the state so far. -/
theorem atPass_succ (k : ℕ) :
    atPass totalRows chunkSize (k + 1) =
      chunkPass totalRows chunkSize (atPass totalRows chunkSize k) :=
  Function.iterate_succ_apply' _ _ _

/-- If no pass overflows, the loop makes one pass for each chunk and reaches the known states. -/
theorem reached_atPass (hsize : 1 ≤ chunkSize.toNat)
    (hfits : ∀ k < numChunks totalRows chunkSize, Performed totalRows chunkSize k →
      Reached totalRows chunkSize k (atPass totalRows chunkSize k) →
      NoOverflow totalRows chunkSize (atPass totalRows chunkSize k))
    {i : ℕ} (hi : i ≤ numChunks totalRows chunkSize) :
    Reached totalRows chunkSize i (atPass totalRows chunkSize i) ∧
      ∀ k < i, Performed totalRows chunkSize k := by
  induction i with
  | zero => exact ⟨reached_zero, fun k hk => absurd hk (Nat.not_lt_zero k)⟩
  | succ i ih =>
    obtain ⟨hreached, hperformed⟩ := ih (Nat.le_of_succ_le hi)
    have hmore := (lt_numChunks_iff hsize).mp (Nat.lt_of_succ_le hi)
    have hnow : Performed totalRows chunkSize i := by
      intro j hj
      rcases Nat.lt_or_eq_of_le hj with hlt | rfl
      · exact hperformed j hlt j (Nat.le_refl j)
      · exact hreached.minKey_le_iff.mpr hmore
    refine ⟨?_, fun k hk => ?_⟩
    · rw [atPass_succ]
      exact hreached.pass hmore (hfits i (Nat.lt_of_succ_le hi) hnow hreached)
    · rcases Nat.lt_or_eq_of_le (Nat.lt_succ_iff.mp hk) with hlt | rfl
      · exact hperformed k hlt
      · exact hnow

/-- The loop runs through the states of its passes. -/
theorem chunkLoop_atPass {n : ℕ} (hmore : ∀ k < n, (atPass totalRows chunkSize k).minKey ≤ totalRows)
    (hend : ¬(atPass totalRows chunkSize n).minKey ≤ totalRows) {i fuel : ℕ} (hi : i ≤ n)
    (hfuel : n < i + fuel) :
    chunkLoop totalRows chunkSize fuel (atPass totalRows chunkSize i) =
      some (atPass totalRows chunkSize n).chunks := by
  induction fuel generalizing i with
  | zero => omega
  | succ fuel ih =>
    rw [chunkLoop]
    rcases Nat.lt_or_eq_of_le hi with hlt | rfl
    · rw [if_pos (hmore i hlt), ← atPass_succ]
      exact ih hlt (by omega)
    · rw [if_neg hend]

/-- What the loop returns if no pass overflows: all chunks in closed form. -/
theorem chunkLoop_eq (hsize : 1 ≤ chunkSize.toNat)
    (hfits : ∀ k < numChunks totalRows chunkSize, Performed totalRows chunkSize k →
      Reached totalRows chunkSize k (atPass totalRows chunkSize k) →
      NoOverflow totalRows chunkSize (atPass totalRows chunkSize k))
    {fuel : ℕ} (hfuel : numChunks totalRows chunkSize < fuel) :
    chunkLoop totalRows chunkSize fuel ⟨[], 1, 0⟩ = some (allChunks totalRows chunkSize) := by
  obtain ⟨hreached, hperformed⟩ := reached_atPass hsize hfits (Nat.le_refl _)
  have hend : ¬(atPass totalRows chunkSize (numChunks totalRows chunkSize)).minKey ≤ totalRows := by
    rw [hreached.minKey_le_iff, ← lt_numChunks_iff hsize]
    exact Nat.lt_irrefl _
  rw [allChunks, ← hreached.chunks]
  exact chunkLoop_atPass (fun k hk => hperformed k hk k (Nat.le_refl k)) hend (Nat.zero_le _)
    (by omega)

/-- Rows and chunk size that leave room for every pass. -/
theorem Reached.noOverflow {i : ℕ} {s : Chunking} (h : Reached totalRows chunkSize i s)
    (hmore : i * chunkSize.toNat < totalRows.toNat)
    (hroom : (i + 1) * chunkSize.toNat + 1 < 2 ^ 64) (hrows : totalRows.toNat + 1 < 2 ^ 64)
    (hid : i + 1 < 2 ^ 32) : NoOverflow totalRows chunkSize s := by
  rw [Nat.add_mul, Nat.one_mul] at hroom
  have hmin := h.minKey_of_lt hmore
  refine ⟨by omega, by omega, ?_, by rw [h.chunkId]; exact hid⟩
  have hle : (passMax totalRows chunkSize s).toNat ≤ totalRows.toNat := by
    rw [passMax, toNat_min]
    exact Nat.min_le_right _ _
  omega

/-! ## The chunks -/

/-- There is one chunk for each pass. -/
theorem length_allChunks : (allChunks totalRows chunkSize).length = numChunks totalRows chunkSize := by
  rw [allChunks, List.length_map, List.length_range]

/-- The chunk at index `i` is the one that pass number `i` adds. -/
theorem getElem?_allChunks {i : ℕ} {c : ChunkRange} (h : (allChunks totalRows chunkSize)[i]? = some c) :
    i < numChunks totalRows chunkSize ∧ c = chunkAt totalRows chunkSize i := by
  rw [allChunks, List.getElem?_map] at h
  obtain ⟨k, hk, rfl⟩ := Option.map_eq_some_iff.mp h
  obtain ⟨hlt, rfl⟩ := List.getElem?_eq_some_iff.mp hk
  rw [List.length_range] at hlt
  exact ⟨hlt, by rw [List.getElem_range]⟩

/-- Every chunk is added by some pass, which gives its bounds in closed form. -/
theorem exists_of_mem_allChunks {c : ChunkRange} (h : c ∈ allChunks totalRows chunkSize) :
    ∃ i < numChunks totalRows chunkSize, c = chunkAt totalRows chunkSize i := by
  obtain ⟨i, hi, rfl⟩ := List.mem_map.mp h
  exact ⟨i, List.mem_range.mp hi, rfl⟩

/-- The ids count the chunks from `0`, as long as they fit into 32 bits. -/
theorem ids_allChunks (hcount : numChunks totalRows chunkSize < 2 ^ 32) :
    (allChunks totalRows chunkSize).map (fun c => c.chunkId.toNat) =
      List.range (numChunks totalRows chunkSize) := by
  have hids : ∀ i ∈ List.range (numChunks totalRows chunkSize),
      ((fun c : ChunkRange => c.chunkId.toNat) ∘ chunkAt totalRows chunkSize) i = id i := by
    intro i hi
    have hlt := List.mem_range.mp hi
    show (UInt32.ofNat i).toNat = i
    rw [UInt32.toNat_ofNat', Nat.mod_eq_of_lt (by omega)]
  rw [allChunks, List.map_map, List.map_congr_left hids, List.map_id]

section Closed

variable (hsize : 1 ≤ chunkSize.toNat) (hsum : totalRows.toNat + chunkSize.toNat < 2 ^ 64)

include hsum

/-- The last key of a chunk: that of the whole chunk, cut off at the last row. -/
theorem toNat_maxKey_chunkAt (j : ℕ) : (chunkAt totalRows chunkSize j).maxKey.toNat =
    min ((j + 1) * chunkSize.toNat) totalRows.toNat := by
  show (UInt64.ofNat _).toNat = _
  rw [UInt64.toNat_ofNat', Nat.mod_eq_of_lt]
  exact Nat.lt_of_le_of_lt (Nat.min_le_right _ _) (by omega)

include hsize

/-- The first key of a chunk is behind all whole chunks before it. -/
theorem toNat_minKey_chunkAt {j : ℕ} (hj : j < numChunks totalRows chunkSize) :
    (chunkAt totalRows chunkSize j).minKey.toNat = j * chunkSize.toNat + 1 := by
  have hlt := (lt_numChunks_iff hsize).mp hj
  show (UInt64.ofNat _).toNat = _
  rw [UInt64.toNat_ofNat', Nat.mod_eq_of_lt (by omega)]

/-- A chunk that another one follows is a whole one. -/
theorem toNat_maxKey_of_succ_lt {j : ℕ} (hj : j + 1 < numChunks totalRows chunkSize) :
    (chunkAt totalRows chunkSize j).maxKey.toNat = (j + 1) * chunkSize.toNat := by
  rw [toNat_maxKey_chunkAt hsum, Nat.min_eq_left ((lt_numChunks_iff hsize).mp hj).le]

/-- The last chunk ends with the last row, however many rows it has. -/
theorem maxKey_chunkAt_last {j : ℕ} (hj : j + 1 = numChunks totalRows chunkSize) :
    (chunkAt totalRows chunkSize j).maxKey = totalRows := by
  have hnext : ¬j + 1 < numChunks totalRows chunkSize := by omega
  rw [lt_numChunks_iff hsize, Nat.not_lt] at hnext
  apply UInt64.toNat_inj.mp
  rw [toNat_maxKey_chunkAt hsum, Nat.min_eq_right hnext]

/-- A chunk has a key, and no more than its size: none is empty and none too large. -/
theorem keys_chunkAt {j : ℕ} (hj : j < numChunks totalRows chunkSize) :
    (chunkAt totalRows chunkSize j).minKey.toNat ≤ (chunkAt totalRows chunkSize j).maxKey.toNat ∧
      (chunkAt totalRows chunkSize j).maxKey.toNat + 1 ≤
        (chunkAt totalRows chunkSize j).minKey.toNat + chunkSize.toNat := by
  have hrows := (lt_numChunks_iff hsize).mp hj
  rw [toNat_minKey_chunkAt hsize hsum hj, toNat_maxKey_chunkAt hsum, Nat.add_mul, Nat.one_mul]
  omega

/-- A key lies in the chunk of its index, counted in whole chunks. -/
theorem holdsKey_chunkAt_iff {j : ℕ} (hj : j < numChunks totalRows chunkSize) {key : ℕ} :
    holdsKey (chunkAt totalRows chunkSize j) key ↔
      1 ≤ key ∧ key ≤ totalRows.toNat ∧ (key - 1) / chunkSize.toNat = j := by
  rw [holdsKey, toNat_minKey_chunkAt hsize hsum hj, toNat_maxKey_chunkAt hsum,
    Nat.div_eq_iff hsize]
  rw [Nat.add_mul, Nat.one_mul]
  omega

/-- The keys from `1` to `totalRows`, and no others, lie in some chunk. -/
theorem covers_allChunks (key : ℕ) :
    1 ≤ key ∧ key ≤ totalRows.toNat ↔ ∃ c ∈ allChunks totalRows chunkSize, holdsKey c key := by
  constructor
  · rintro ⟨hpos, hle⟩
    have hi : (key - 1) / chunkSize.toNat < numChunks totalRows chunkSize := by
      rw [lt_numChunks_iff hsize]
      have hmul := Nat.div_mul_le_self (key - 1) chunkSize.toNat
      omega
    -- the chunk of a key is found by division
    refine ⟨chunkAt totalRows chunkSize ((key - 1) / chunkSize.toNat), ?_, ?_⟩
    · exact List.mem_map_of_mem (List.mem_range.mpr hi)
    · exact (holdsKey_chunkAt_iff hsize hsum hi).mpr ⟨hpos, hle, rfl⟩
  · rintro ⟨c, hc, hkey⟩
    obtain ⟨i, hi, rfl⟩ := exists_of_mem_allChunks hc
    rw [holdsKey_chunkAt_iff hsize hsum hi] at hkey
    exact ⟨hkey.1, hkey.2.1⟩

/-- The chunks of all passes are a partition. Every part is read off the first and last keys of a
chunk. -/
theorem partitions_allChunks (hcount : numChunks totalRows chunkSize < 2 ^ 32) :
    Partitions totalRows chunkSize (allChunks totalRows chunkSize) where
  count := length_allChunks
  first := by
    intro c hc
    obtain ⟨hi, rfl⟩ := getElem?_allChunks hc
    rw [toNat_minKey_chunkAt hsize hsum hi, Nat.zero_mul]
  next := by
    intro i c d hc hd
    obtain ⟨-, rfl⟩ := getElem?_allChunks hc
    obtain ⟨hi, rfl⟩ := getElem?_allChunks hd
    rw [toNat_minKey_chunkAt hsize hsum hi, toNat_maxKey_of_succ_lt hsize hsum hi]
  last := by
    intro c hc
    rw [List.getLast?_eq_getElem?, length_allChunks] at hc
    obtain ⟨hi, rfl⟩ := getElem?_allChunks hc
    exact maxKey_chunkAt_last hsize hsum (by omega)
  nonempty := by
    intro c hc
    obtain ⟨i, hi, rfl⟩ := exists_of_mem_allChunks hc
    exact (keys_chunkAt hsize hsum hi).1
  size := by
    intro c hc
    obtain ⟨i, hi, rfl⟩ := exists_of_mem_allChunks hc
    exact (keys_chunkAt hsize hsum hi).2
  full := by
    intro i c hc hlast
    obtain ⟨hi, rfl⟩ := getElem?_allChunks hc
    rw [length_allChunks] at hlast
    rw [toNat_minKey_chunkAt hsize hsum hi, toNat_maxKey_of_succ_lt hsize hsum hlast, Nat.add_mul,
      Nat.one_mul]
    omega
  ids := by
    rw [length_allChunks]
    exact ids_allChunks hcount
  pending := by
    intro c hc
    obtain ⟨i, -, rfl⟩ := exists_of_mem_allChunks hc
    rfl
  covers := covers_allChunks hsize hsum
  once := by
    intro key i j c d hc hd hkc hkd
    obtain ⟨hi, rfl⟩ := getElem?_allChunks hc
    obtain ⟨hj, rfl⟩ := getElem?_allChunks hd
    rw [holdsKey_chunkAt_iff hsize hsum hi] at hkc
    rw [holdsKey_chunkAt_iff hsize hsum hj] at hkd
    exact hkc.2.2.symm.trans hkd.2.2

end Closed

/-- The constructor returns a partition of the keys, given fuel for one pass for each chunk: the
chunks follow each other from the first row to the last, without a gap or an overlap. -/
theorem partitions (tableName : String) (totalRows chunkSize : UInt64)
    (hsize : 1 ≤ chunkSize.toNat) (hsum : totalRows.toNat + chunkSize.toNat < 2 ^ 64)
    (hcount : numChunks totalRows chunkSize < 2 ^ 32) (fuel : ℕ)
    (hfuel : numChunks totalRows chunkSize < fuel) :
    ∃ p, new tableName totalRows chunkSize fuel = some p ∧ p.tableName = tableName ∧
      Partitions totalRows chunkSize p.chunks := by
  refine ⟨⟨tableName, _⟩, ?_, rfl, partitions_allChunks hsize hsum hcount⟩
  rw [new, chunkLoop_eq hsize ?_ hfuel]
  · rfl
  · intro k hk _ hreached
    have hmore := (lt_numChunks_iff hsize).mp hk
    refine hreached.noOverflow hmore ?_ (by omega) (by omega)
    rw [Nat.add_mul, Nat.one_mul]
    omega

/-- Ten rows in chunks of four: two full chunks and one of two rows. -/
theorem partitions_tenByFour :
    ∃ p, new "users" 10 4 4 = some p ∧ p.tableName = "users" ∧ Partitions 10 4 p.chunks :=
  partitions "users" 10 4 (by decide) (by decide) (by decide) 4 (by decide)

/-! ## The arguments on which the loop is total -/

/-- A chunk size of zero leaves the first key where it is, so the loop runs for every fuel. -/
theorem chunkLoop_zero_size (hrows : 1 ≤ totalRows) (fuel : ℕ) {s : Chunking} (hs : s.minKey = 1) :
    chunkLoop totalRows 0 fuel s = none := by
  induction fuel generalizing s with
  | zero => rfl
  | succ fuel ih =>
    rw [chunkLoop, hs, if_pos hrows]
    apply ih
    show min (s.minKey + 0 - 1) totalRows + 1 = 1
    apply UInt64.toNat_inj.mp
    rw [hs, UInt64.toNat_add, toNat_min]
    show (min 0 totalRows.toNat + 1) % 2 ^ 64 = 1
    rw [Nat.zero_min]

/-- The last pass of a total run leaves room for the key that follows the last chunk, and for the
id. -/
theorem ChunkingTotal.room (h : ChunkingTotal totalRows chunkSize) (hrows : totalRows ≠ 0) :
    1 ≤ chunkSize.toNat ∧ numChunks totalRows chunkSize * chunkSize.toNat + 1 < 2 ^ 64 ∧
      numChunks totalRows chunkSize < 2 ^ 32 := by
  have hpos : 1 ≤ totalRows.toNat := by
    rcases Nat.eq_zero_or_pos totalRows.toNat with hzero | hpos
    · exact absurd (UInt64.toNat_inj.mp hzero) hrows
    · exact hpos
  -- with chunk size zero the loop would not end
  have hsize : 1 ≤ chunkSize.toNat := by
    rcases Nat.eq_zero_or_pos chunkSize.toNat with hzero | hpos'
    · have hnone : chunkLoop totalRows 0 (totalRows.toNat + 1) ⟨[], 1, 0⟩ = none :=
        chunkLoop_zero_size (UInt64.le_iff_toNat_le.mpr hpos) _ rfl
      obtain rfl : chunkSize = 0 := UInt64.toNat_inj.mp hzero
      have hends := h.ends
      rw [hnone] at hends
      cases hends
    · exact hpos'
  obtain ⟨n, hn⟩ : ∃ n, numChunks totalRows chunkSize = n + 1 := by
    apply Nat.exists_eq_add_one.mpr
    rw [lt_numChunks_iff hsize]
    omega
  -- the state before the last pass
  obtain ⟨-, hperformed⟩ := reached_atPass hsize (fun k _ hk _ => h.noOverflow k hk)
    (Nat.le_refl (numChunks totalRows chunkSize))
  obtain ⟨hreached, -⟩ := reached_atPass hsize (fun k _ hk _ => h.noOverflow k hk)
    (show n ≤ numChunks totalRows chunkSize by omega)
  have hmore : n * chunkSize.toNat < totalRows.toNat := (lt_numChunks_iff hsize).mp (by omega)
  have hfits := h.noOverflow n (hperformed n (by omega))
  have hadd := hfits.add
  have hid := hfits.id
  rw [hreached.minKey_of_lt hmore] at hadd
  rw [hreached.chunkId] at hid
  rw [hn]
  refine ⟨hsize, ?_, hid⟩
  rw [Nat.add_mul, Nat.one_mul]
  omega

/-- Without rows the loop makes no pass. -/
theorem chunkingTotal_zero : ChunkingTotal 0 chunkSize where
  ends := rfl
  noOverflow k hk := absurd (hk 0 (Nat.zero_le k)) (show ¬(1 : UInt64) ≤ 0 by decide)

/-- Room for the key that follows the last whole chunk is room for every pass. -/
theorem chunkingTotal_of_room (hsize : 1 ≤ chunkSize.toNat)
    (hroom : numChunks totalRows chunkSize * chunkSize.toNat + 1 < 2 ^ 64)
    (hcount : numChunks totalRows chunkSize < 2 ^ 32) : ChunkingTotal totalRows chunkSize := by
  have hrows : totalRows.toNat ≤ numChunks totalRows chunkSize * chunkSize.toNat := by
    rw [← Nat.not_lt, ← lt_numChunks_iff hsize]
    exact Nat.lt_irrefl _
  -- the sums of a pass are bounded by those of the last one
  have hfits : ∀ k < numChunks totalRows chunkSize,
      Reached totalRows chunkSize k (atPass totalRows chunkSize k) →
      NoOverflow totalRows chunkSize (atPass totalRows chunkSize k) := by
    intro k hk hreached
    have hle : (k + 1) * chunkSize.toNat ≤ numChunks totalRows chunkSize * chunkSize.toNat :=
      Nat.mul_le_mul_right _ hk
    exact hreached.noOverflow ((lt_numChunks_iff hsize).mp hk) (by omega) (by omega) (by omega)
  have hreach := fun {i : ℕ} (hi : i ≤ numChunks totalRows chunkSize) =>
    reached_atPass hsize (fun k hk _ hreached => hfits k hk hreached) hi
  refine ⟨?_, fun k hk => ?_⟩
  · have hle : numChunks totalRows chunkSize ≤ totalRows.toNat := by
      by_contra hgt
      have hlt := (lt_numChunks_iff hsize).mp (Nat.lt_of_not_le hgt)
      have hmul := Nat.mul_le_mul_left totalRows.toNat hsize
      omega
    rw [chunkLoop_eq hsize (fun k hk _ hreached => hfits k hk hreached) (by omega)]
    rfl
  · -- the loop has ended after the last chunk
    have hlt : k < numChunks totalRows chunkSize := by
      by_contra hge
      have hle := hk _ (Nat.le_of_not_lt hge)
      rw [(hreach (Nat.le_refl _)).1.minKey_le_iff] at hle
      omega
    exact hfits k hlt (hreach hlt.le).1

/-- The loop is total exactly if there are no rows, or the chunk size is positive, the rows rounded up
to whole chunks leave room for one more key, and the chunks can be counted. -/
theorem chunkingTotal_iff (totalRows chunkSize : UInt64) :
    ChunkingTotal totalRows chunkSize ↔ totalRows = 0 ∨
      1 ≤ chunkSize.toNat ∧ numChunks totalRows chunkSize * chunkSize.toNat + 1 < 2 ^ 64 ∧
        numChunks totalRows chunkSize < 2 ^ 32 := by
  constructor
  · intro h
    by_cases hrows : totalRows = 0
    · exact Or.inl hrows
    · exact Or.inr (h.room hrows)
  · rintro (rfl | ⟨hsize, hroom, hcount⟩)
    · exact chunkingTotal_zero
    · exact chunkingTotal_of_room hsize hroom hcount

/-- One row in chunks of size zero: the loop adds an empty chunk at each pass, always with the same
keys, and does not end. -/
theorem not_chunkingTotal_zeroSize : ¬ChunkingTotal 1 0 := by
  intro h
  have hnone : (chunkLoop 1 0 (UInt64.toNat 1 + 1) ⟨[], 1, 0⟩).isSome = false := by decide
  exact Bool.false_ne_true (hnone.symm.trans h.ends)

end Caminus.ParallelSnapshotter
