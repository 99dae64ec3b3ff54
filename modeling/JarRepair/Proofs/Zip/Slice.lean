import JarRepair.Zip.Archive

/-! # Slices of the data

A slice has the length that was asked for unless the data ends before, a number is read from it as
from the data, and it is the same in all data that agree up to its end. -/

namespace JarRepair.Zip

variable {data data' : Array UInt8} {i k n limit : Nat}

theorem slice_eq (data : Array UInt8) (i n : Nat) :
    slice data i n = (data.toList.drop i).take n := by
  rw [slice, Array.toList_extract, List.extract_eq_take_drop, Nat.add_sub_cancel_left]

/-- A part is found where it begins. -/
theorem slice_of_eq {data before part after : Bytes} (h : data = before ++ (part ++ after))
    (hi : i = before.length) (hn : n = part.length) : slice data.toArray i n = part := by
  rw [slice_eq, h, hi, hn, List.drop_left, List.take_left]

theorem length_slice_le (data : Array UInt8) (i n : Nat) : (slice data i n).length ≤ n := by
  rw [slice_eq]
  exact List.length_take_le n _

theorem length_slice_eq_iff (hn : 0 < n) : (slice data i n).length = n ↔ i + n ≤ data.size := by
  rw [slice_eq, List.length_take, List.length_drop, Array.length_toList]
  omega

theorem length_slice (h : i + n ≤ data.size) : (slice data i n).length = n := by
  rw [slice_eq, List.length_take, List.length_drop, Array.length_toList]
  omega

theorem slice_infix (data : Array UInt8) (i n : Nat) : slice data i n <:+: data.toList := by
  rw [slice_eq]
  exact (List.take_prefix n _).isInfix.trans (List.drop_suffix i _).isInfix

theorem slice_take (h : k ≤ n) : slice data i k = (slice data i n).take k := by
  rw [slice_eq, slice_eq, List.take_take, Nat.min_eq_left h]

/-- Slices that end by `limit` are the same in data that begin alike. -/
theorem slice_congr (h : data.toList.take limit = data'.toList.take limit) (hn : i + n ≤ limit) :
    slice data i n = slice data' i n := by
  have hslice (data : Array UInt8) : slice data i n = ((data.toList.take limit).drop i).take n := by
    rw [slice_eq, List.drop_take, List.take_take, Nat.min_eq_left (by omega)]
  rw [hslice, hslice, h]

/-! ## Numbers -/

theorem getD_slice (hk : k < n) : (slice data i n).getD k 0 = data.toList.getD (i + k) 0 := by
  rw [slice_eq, List.getD_eq_getElem?_getD, List.getElem?_take_of_lt hk, List.getElem?_drop,
    ← List.getD_eq_getElem?_getD]

theorem wordAt_slice (hk : k + 2 ≤ n) : wordAt (slice data i n) k = wordAt data.toList (i + k) := by
  rw [wordAt, wordAt, getD_slice (by omega), getD_slice (by omega), Nat.add_assoc]

theorem dwordAt_slice (hk : k + 4 ≤ n) :
    dwordAt (slice data i n) k = dwordAt data.toList (i + k) := by
  rw [dwordAt, dwordAt, getD_slice (by omega), getD_slice (by omega), getD_slice (by omega),
    getD_slice (by omega)]
  simp only [Nat.add_assoc]

end JarRepair.Zip
