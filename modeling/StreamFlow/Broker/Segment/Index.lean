import StreamFlow.Broker.Types
import Mathlib.Tactic.IntervalCases

/-!
# The index files of a segment

An index file is a sequence of 16-byte entries, each a pair of big-endian signed
64-bit numbers: `segment.index` pairs a record's offset with its position in the
log, `segment.timeindex` a timestamp with an offset. `entriesOf` is the reading
loop of `loadIndexes`, which ignores an incomplete last entry. The main lemma,
`entriesOf_take_encodePairs`, reads a file that was cut at any byte: exactly the
entries that are whole come back.
-/

namespace StreamFlow

open BigEndian

def int64ToBytes (v : ℤ) : Bytes :=
  (List.range 8).map fun (i : ℕ) => UInt8.ofInt (v >>> (8 * (7 - i)))

def bytesToInt64 (b : Bytes) : ℤ :=
  ((b.take 8).foldl (fun (v : BitVec 64) (x : UInt8) => v <<< 8 ||| BitVec.ofNat 64 x.toNat)
    0#64).toInt

/-- One byte of a shifted number is a base-256 digit of its residue. -/
theorem ofInt_shiftRight (v : ℤ) {k : ℕ} (hk : k < 8) :
    UInt8.ofInt (v >>> (8 * k)) = UInt8.ofNat ((v % 2 ^ 64).toNat / 256 ^ k) := by
  apply UInt8.toNat.inj
  rw [UInt8.ofInt, UInt8.toNat_ofNat', UInt8.toNat_ofNat', Int.shiftRight_eq_div_pow]
  interval_cases k <;> norm_num <;> omega

theorem int64ToBytes_eq_encode (v : ℤ) : int64ToBytes v = encode 8 (v % 2 ^ 64).toNat := by
  have hbyte : ∀ k : ℕ, k < 8 →
      UInt8.ofInt (v >>> (8 * k)) = UInt8.ofNat ((v % 2 ^ 64).toNat / 256 ^ k) :=
    fun k hk => ofInt_shiftRight v hk
  simp only [int64ToBytes, List.range, List.range.loop, List.map_cons, List.map_nil,
    encode_succ, encode_zero]
  rw [hbyte 7, hbyte 6, hbyte 5, hbyte 4, hbyte 3, hbyte 2, hbyte 1, hbyte 0] <;> norm_num

@[simp] theorem length_int64ToBytes (v : ℤ) : (int64ToBytes v).length = 8 := by
  simp [int64ToBytes]

/-- Shifting in a byte is a multiplication and an addition modulo the word
size. -/
theorem toNat_shiftLeft_or (v : BitVec 64) (b : UInt8) :
    (v <<< 8 ||| BitVec.ofNat 64 b.toNat).toNat = (v.toNat * 256 + b.toNat) % 2 ^ 64 := by
  have hb : b.toNat < 2 ^ 8 := b.toNat_lt
  have hshift : v.toNat <<< 8 % 2 ^ 64 = (v.toNat % 2 ^ 56) <<< 8 := by
    rw [Nat.shiftLeft_eq, Nat.shiftLeft_eq]
    omega
  rw [BitVec.toNat_or, BitVec.toNat_shiftLeft, BitVec.toNat_ofNat, hshift,
    Nat.mod_eq_of_lt (by omega : b.toNat < 2 ^ 64), ← Nat.shiftLeft_add_eq_or_of_lt hb,
    Nat.shiftLeft_eq]
  omega

theorem bytesToInt64_eq_decode {b : Bytes} (h : b.length ≤ 8) :
    bytesToInt64 b = (decode b : ℤ).bmod (2 ^ 64) := by
  have hfold : ∀ (l : Bytes) (v : BitVec 64) (n : ℕ), v.toNat = n % 2 ^ 64 →
      (l.foldl (fun (v : BitVec 64) (x : UInt8) => v <<< 8 ||| BitVec.ofNat 64 x.toNat)
        v).toNat = l.foldl (fun v b => v * 256 + b.toNat) n % 2 ^ 64 := by
    intro l
    induction l with
    | nil => intro v n hv; exact hv
    | cons x l ih =>
        intro v n hv
        refine ih _ (n * 256 + x.toNat) ?_
        rw [toNat_shiftLeft_or, hv]
        omega
  rw [bytesToInt64, List.take_of_length_le h, BitVec.toInt_eq_toNat_bmod,
    hfold b 0#64 0 rfl, ← decode, Int.natCast_mod]
  exact Int.emod_bmod _ _

theorem bytesToInt64_int64ToBytes {v : ℤ} (h : Int64Range v) :
    bytesToInt64 (int64ToBytes v) = v := by
  have hlt : (v % 2 ^ 64).toNat < 256 ^ 8 := by omega
  rw [bytesToInt64_eq_decode (by simp), int64ToBytes_eq_encode, decode_encode_of_lt hlt]
  exact bmod_emod_eq_self h.1 h.2

structure IndexEntry where
  offset : ℤ
  position : ℤ

structure TimeIndexEntry where
  timestamp : ℤ
  offset : ℤ

/-- The 16 bytes of a pair of numbers, shared by the two index files. -/
def encodePair (e : ℤ × ℤ) : Bytes := int64ToBytes e.1 ++ int64ToBytes e.2

def encodeIndexEntry (entry : IndexEntry) : Bytes :=
  encodePair (entry.offset, entry.position)

def encodeTimeEntry (entry : TimeIndexEntry) : Bytes :=
  encodePair (entry.timestamp, entry.offset)

@[simp] theorem length_encodePair (e : ℤ × ℤ) : (encodePair e).length = 16 := by
  simp [encodePair]

/-- The contents of an index file with the given entries. -/
def encodePairs (l : List (ℤ × ℤ)) : Bytes := l.flatMap encodePair

theorem encodePairs_cons (e : ℤ × ℤ) (l : List (ℤ × ℤ)) :
    encodePairs (e :: l) = encodePair e ++ encodePairs l := rfl

@[simp] theorem length_encodePairs (l : List (ℤ × ℤ)) :
    (encodePairs l).length = 16 * l.length := by
  induction l with
  | nil => rfl
  | cons e l ih => rw [encodePairs_cons, List.length_append, ih]; simp; omega

/-- The two numbers of the entry that starts at byte `i`. -/
def entryAt (data : Bytes) (i : ℕ) : ℤ × ℤ :=
  (bytesToInt64 ((data.drop i).take 8), bytesToInt64 ((data.drop (i + 8)).take 8))

/-- The loop `for i := 0; i+16 <= len(data); i += 16` of `loadIndexes`. -/
def entriesOf (data : Bytes) : List (ℤ × ℤ) :=
  (List.range (data.length / 16)).map fun i => entryAt data (16 * i)

@[simp] theorem length_entriesOf (data : Bytes) :
    (entriesOf data).length = data.length / 16 := by
  simp [entriesOf]

theorem entriesOf_of_length_lt {data : Bytes} (h : data.length < 16) : entriesOf data = [] := by
  rw [entriesOf, Nat.div_eq_of_lt h]
  rfl

theorem entryAt_encodePair_append {e : ℤ × ℤ} (he : Int64Range e.1 ∧ Int64Range e.2)
    (rest : Bytes) : entryAt (encodePair e ++ rest) 0 = e := by
  have hfst : ((encodePair e ++ rest).drop 0).take 8 = int64ToBytes e.1 := by
    simp [encodePair, List.append_assoc]
  have hsnd : ((encodePair e ++ rest).drop (0 + 8)).take 8 = int64ToBytes e.2 := by
    simp [encodePair, List.append_assoc]
  rw [entryAt, hfst, hsnd, bytesToInt64_int64ToBytes he.1, bytesToInt64_int64ToBytes he.2]

theorem entryAt_append_right {e rest : Bytes} (he : e.length = 16) (i : ℕ) :
    entryAt (e ++ rest) (16 + i) = entryAt rest i := by
  unfold entryAt
  rw [← he, List.drop_length_add_append, Nat.add_assoc, List.drop_length_add_append]

theorem entriesOf_encodePair_append {e : ℤ × ℤ} (he : Int64Range e.1 ∧ Int64Range e.2)
    (rest : Bytes) : entriesOf (encodePair e ++ rest) = e :: entriesOf rest := by
  have hcount : (encodePair e ++ rest).length / 16 = rest.length / 16 + 1 := by
    rw [List.length_append, length_encodePair]
    omega
  have htail : (List.range (rest.length / 16)).map
        ((fun i => entryAt (encodePair e ++ rest) (16 * i)) ∘ Nat.succ) = entriesOf rest := by
    apply List.map_congr_left
    intro i _
    have hi : 16 * i.succ = 16 + 16 * i := by omega
    rw [Function.comp_apply, hi, entryAt_append_right (length_encodePair e)]
  rw [entriesOf, hcount, List.range_succ_eq_map, List.map_cons, List.map_map, htail,
    Nat.mul_zero, entryAt_encodePair_append he]

/-- A file cut after `k` bytes gives back exactly its whole entries. -/
theorem entriesOf_take_encodePairs {l : List (ℤ × ℤ)}
    (hl : ∀ e ∈ l, Int64Range e.1 ∧ Int64Range e.2) (k : ℕ) :
    entriesOf ((encodePairs l).take k) = l.take (k / 16) := by
  induction l generalizing k with
  | nil => simp [entriesOf_of_length_lt]
  | cons e l ih =>
      by_cases hk : k < 16
      · rw [entriesOf_of_length_lt, Nat.div_eq_of_lt hk, List.take_zero]
        rw [List.length_take]
        omega
      · obtain ⟨j, rfl⟩ : ∃ j, k = 16 + j := ⟨k - 16, by omega⟩
        have hdiv : (16 + j) / 16 = j / 16 + 1 := by omega
        have htake : (encodePair e ++ encodePairs l).take (16 + j) =
            encodePair e ++ (encodePairs l).take j := by
          rw [← length_encodePair e, List.take_length_add_append]
        rw [encodePairs_cons, htake, entriesOf_encodePair_append (hl e List.mem_cons_self),
          ih (fun e' he' => hl e' (List.mem_cons_of_mem _ he')), hdiv, List.take_succ_cons]

theorem entriesOf_encodePairs {l : List (ℤ × ℤ)}
    (hl : ∀ e ∈ l, Int64Range e.1 ∧ Int64Range e.2) : entriesOf (encodePairs l) = l := by
  have h := entriesOf_take_encodePairs hl (encodePairs l).length
  rw [List.take_length, length_encodePairs, Nat.mul_div_cancel_left _ (by norm_num),
    List.take_length] at h
  exact h

/-- The buffer `persistIndexes` writes to `segment.index`: it ranges over the map
and sorts by offset. -/
def indexBuf (offsets : OrdMap ℤ ℤ) : Bytes :=
  let entries := (offsets.toList.map fun e => IndexEntry.mk e.1 e.2).insertionSort
    fun a b => a.offset ≤ b.offset
  entries.flatMap encodeIndexEntry

/-- The buffer `persistIndexes` writes to `segment.timeindex`. -/
def timeBuf (timeOffsets : OrdMap ℤ ℤ) : Bytes :=
  let timeEntries := (timeOffsets.toList.map fun e => TimeIndexEntry.mk e.1 e.2).insertionSort
    fun a b => a.timestamp ≤ b.timestamp
  timeEntries.flatMap encodeTimeEntry

theorem le_of_compare_lt {a b : ℤ} (h : compare a b = .lt) : a ≤ b :=
  (Int.compare_eq_lt.mp h).le

theorem indexBuf_eq (m : OrdMap ℤ ℤ) : indexBuf m = encodePairs m.toList := by
  unfold indexBuf
  rw [OrdMap.insertionSort_map_toList m _ (fun (a b : IndexEntry) => a.offset ≤ b.offset)
    fun a b h => le_of_compare_lt h, List.flatMap_map]
  rfl

theorem timeBuf_eq (m : OrdMap ℤ ℤ) : timeBuf m = encodePairs m.toList := by
  unfold timeBuf
  rw [OrdMap.insertionSort_map_toList m _ (fun (a b : TimeIndexEntry) => a.timestamp ≤ b.timestamp)
    fun a b h => le_of_compare_lt h, List.flatMap_map]
  rfl

end StreamFlow
