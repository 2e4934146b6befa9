import StreamFlow.Foundation.Grouping
import StreamFlow.Processor.ZonedTime

/-!
# Tumbling windows

`TumblingWindows` of `advanced_streaming.go` files each record under its time rounded down.
`getElem?_tumblingWindows` reads off the entries. The key has the location of the record, so records
of one window with different locations are in different entries; `tumblingWindows_isTumbling_iff`
says that this is the only way in which the entries are not the windows.
-/

namespace StreamFlow.Processor

open Grouping

/-- A map from the starts of windows to the records in them. -/
abbrev WindowMap (ν : Type) := OrdMap ZonedTime (List (Record ν))

variable {ν : Type}

def tumblingWindows (input : List (ZonedRecord ν)) (size : ℤ) : WindowMap ν :=
  input.foldl (fun out tr => out.push (tr.atTime.truncate size) tr.record) ∅

theorem tumblingWindows_eq_pushAll (input : List (ZonedRecord ν)) (size : ℤ) :
    tumblingWindows input size =
      OrdMap.pushAll ∅ (input.map fun tr => (tr.atTime.truncate size, tr.record)) := by
  rw [OrdMap.pushAll, List.foldl_map]
  rfl

/-- The entry of a key has the records whose time is rounded down to it. -/
theorem getElem?_tumblingWindows (input : List (ZonedRecord ν)) (size : ℤ) (k : ZonedTime) :
    (tumblingWindows input size)[k]? =
      listEntry ((input.filter fun tr => tr.atTime.truncate size = k).map ZonedRecord.record) := by
  rw [tumblingWindows_eq_pushAll, OrdMap.getElem?_pushAll_empty, OrdMap.valuesAt_map]

/-- The records are filed in entries: `key` gives the entry of each position of the input, and an
entry has the records of its positions, in the order of the input. -/
def FiledBy (input : List (ZonedRecord ν)) (out : WindowMap ν) (key : ℕ → ZonedTime) : Prop :=
  ∀ k, out[k]? =
    listEntry ((input.zipIdx.filter fun e => key e.2 = k).map fun e => e.1.record)

/-- The key under which `TumblingWindows` files the record of a position. -/
def bucketAt (input : List (ZonedRecord ν)) (size : ℤ) (i : ℕ) : ZonedTime :=
  ((input[i]?).map fun tr => tr.atTime.truncate size).getD ⟨0, ⟨0⟩⟩

theorem bucketAt_of_lt {input : List (ZonedRecord ν)} {i : ℕ} (hi : i < input.length) (size : ℤ) :
    bucketAt input size i = input[i].atTime.truncate size := by
  rw [bucketAt, List.getElem?_eq_getElem hi, Option.map_some, Option.getD_some]

theorem filedBy_bucketAt (input : List (ZonedRecord ν)) (size : ℤ) :
    FiledBy input (tumblingWindows input size) (bucketAt input size) := by
  intro k
  have hfilter : (input.zipIdx.filter fun e => bucketAt input size e.2 = k) =
      input.zipIdx.filter ((fun tr => decide (tr.atTime.truncate size = k)) ∘ Prod.fst) := by
    refine List.filter_congr fun e he => ?_
    rw [bucketAt, List.mem_zipIdx_iff_getElem?.mp he]
    rfl
  have hmap : (fun e : ZonedRecord ν × ℕ => e.1.record) = ZonedRecord.record ∘ Prod.fst := rfl
  rw [getElem?_tumblingWindows, hfilter, hmap, ← List.map_map, ← List.filter_map,
    List.zipIdx_map_fst]

/-- The entries of the map are the keys that some position has. -/
theorem FiledBy.mem_image_key_iff {input : List (ZonedRecord ν)} {out : WindowMap ν}
    {key : ℕ → ZonedTime} (h : FiledBy input out key) (k : ZonedTime) :
    k ∈ (Finset.range input.length).image key ↔ (out[k]?).isSome := by
  rw [h k, isSome_listEntry, Finset.mem_image]
  constructor
  · rintro ⟨i, hi, hk⟩ hnil
    rw [List.map_eq_nil_iff, List.filter_eq_nil_iff] at hnil
    have hi := Finset.mem_range.mp hi
    exact hnil (input[i], i) (List.mem_zipIdx_iff_getElem?.mpr (List.getElem?_eq_getElem hi))
      (decide_eq_true hk)
  · intro hne
    obtain ⟨r, hr⟩ := List.exists_mem_of_ne_nil _ hne
    obtain ⟨e, he, -⟩ := List.mem_map.mp hr
    obtain ⟨hmem, hk⟩ := List.mem_filter.mp he
    obtain ⟨hi, -⟩ := List.getElem?_eq_some_iff.mp (List.mem_zipIdx_iff_getElem?.mp hmem)
    exact ⟨e.2, Finset.mem_range.mpr hi, of_decide_eq_true hk⟩

/-- `TumblingWindows` makes one entry for each time rounded down and each location, so if it makes
one for each time rounded down, this determines the location. -/
theorem FiledBy.loc_eq {input : List (ZonedRecord ν)} {size : ℤ} {key : ℕ → ZonedTime}
    (h : FiledBy input (tumblingWindows input size) key)
    (hkey : ∀ i j (hi : i < input.length) (hj : j < input.length), key i = key j ↔
      (input[i].atTime.truncate size).instant = (input[j].atTime.truncate size).instant)
    {i j : ℕ} (hi : i < input.length) (hj : j < input.length)
    (heq : (input[i].atTime.truncate size).instant = (input[j].atTime.truncate size).instant) :
    input[i].atTime.loc = input[j].atTime.loc := by
  set positions := Finset.range input.length
  have himage : positions.image key = positions.image (bucketAt input size) := by
    ext k
    rw [h.mem_image_key_iff, (filedBy_bucketAt input size).mem_image_key_iff]
  have hcard : ((positions.image (bucketAt input size)).image ZonedTime.instant).card =
      (positions.image (bucketAt input size)).card := by
    rw [Finset.image_image, ← himage]
    refine (card_image_eq_of_iff fun i hi j hj => ?_).symm
    have hi := Finset.mem_range.mp hi
    have hj := Finset.mem_range.mp hj
    rw [hkey i j hi hj, Function.comp, Function.comp, bucketAt_of_lt hi, bucketAt_of_lt hj]
  have hinj := Finset.card_image_iff.mp hcard
  have hbucket := hinj (Finset.mem_image_of_mem _ (Finset.mem_range.mpr hi))
    (Finset.mem_image_of_mem _ (Finset.mem_range.mpr hj))
    (by rw [bucketAt_of_lt hi, bucketAt_of_lt hj, heq])
  rw [bucketAt_of_lt hi, bucketAt_of_lt hj] at hbucket
  have hloc := congrArg ZonedTime.loc hbucket
  rwa [ZonedTime.truncate_loc, ZonedTime.truncate_loc] at hloc

/-- What tumbling windows are: the records are filed in entries, two records in the same one when
their times are rounded down to the same instant. -/
def IsTumbling (input : List (ZonedRecord ν)) (size : ℤ) (out : WindowMap ν) : Prop :=
  ∃ key, FiledBy input out key ∧ ∀ i j (hi : i < input.length) (hj : j < input.length),
    key i = key j ↔
      (input[i].atTime.truncate size).instant = (input[j].atTime.truncate size).instant

/-- The entries are the windows of time exactly when the records of one window all have the same
location. -/
theorem tumblingWindows_isTumbling_iff (input : List (ZonedRecord ν)) (size : ℤ) :
    IsTumbling input size (tumblingWindows input size) ↔ ∀ tr ∈ input, ∀ tr' ∈ input,
      (tr.atTime.truncate size).instant = (tr'.atTime.truncate size).instant →
        tr.atTime.loc = tr'.atTime.loc := by
  constructor
  · rintro ⟨key, hfiled, hkey⟩ tr htr tr' htr' heq
    obtain ⟨i, hi, rfl⟩ := List.getElem_of_mem htr
    obtain ⟨j, hj, rfl⟩ := List.getElem_of_mem htr'
    exact hfiled.loc_eq hkey hi hj heq
  · intro hloc
    refine ⟨bucketAt input size, filedBy_bucketAt input size, fun i j hi hj => ?_⟩
    rw [bucketAt_of_lt hi, bucketAt_of_lt hj]
    refine ⟨fun h => by rw [h], fun h => ZonedTime.ext h ?_⟩
    rw [ZonedTime.truncate_loc, ZonedTime.truncate_loc]
    exact hloc _ (List.getElem_mem hi) _ (List.getElem_mem hj) h

/-- Two records of one instant, shown in two locations, are in two entries. -/
theorem tumblingWindows_split : ¬ IsTumbling [⟨⟨7, ⟨0⟩⟩, some ∅⟩, ⟨⟨7, ⟨1⟩⟩, some ∅⟩] 5
    (tumblingWindows ([⟨⟨7, ⟨0⟩⟩, some ∅⟩, ⟨⟨7, ⟨1⟩⟩, some ∅⟩] : List (ZonedRecord ℕ)) 5) := by
  rintro ⟨key, hfiled, hkey⟩
  have hloc := hfiled.loc_eq hkey (i := 0) (j := 1) (by decide) (by decide) rfl
  exact absurd hloc (by decide)

end StreamFlow.Processor
