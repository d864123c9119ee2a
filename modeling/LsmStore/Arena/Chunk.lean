import LsmStore.Bytes

/-!
# The contents of an arena block

A block starts out as zeros and is mostly written from its front, so only the
bytes up to the last one ever written are kept; those behind them are still zero.
`Chunk.toList` is the whole contents, and the main statements say what reading
and writing are in terms of it.
-/

namespace LsmStore.Arena

/-- The contents of one block. -/
structure Chunk where
  size : Nat
  /-- The bytes up to the last one ever written. -/
  written : Array UInt8
  written_le : written.size ≤ size

namespace Chunk

def zeroed (size : Nat) : Chunk :=
  ⟨size, #[], Nat.zero_le size⟩

def toList (chunk : Chunk) : Bytes :=
  chunk.written.toList ++ List.replicate (chunk.size - chunk.written.size) 0

/-- The bytes from a position on, at most `length` of them. -/
def read (chunk : Chunk) (start length : Nat) : Bytes :=
  let kept := chunk.written.extract start (start + length)
  kept.toList ++ List.replicate (min length (chunk.size - start) - kept.size) 0

/-- Puts bytes at a position and behind it, over what is there or at the end, up to `stop`. -/
def overlay (written : Array UInt8) (position stop : Nat) : Bytes → Array UInt8
  | [] => written
  | byte :: bytes =>
    if position < stop then
      overlay
        (if position < written.size then written.setIfInBounds position byte
          else written.push byte)
        (position + 1) stop bytes
    else written

/-- Fills up with zeros to a length. -/
def padTo (written : Array UInt8) (length : Nat) : Array UInt8 :=
  written ++ Array.replicate (length - written.size) 0

theorem toList_overlay
    {written : Array UInt8} {position : Nat}
    (hreached : position ≤ written.size) (stop : Nat) (bytes : Bytes) :
    (overlay written position stop bytes).toList =
      written.toList.take position ++ bytes.take (stop - position) ++
        written.toList.drop (position + (bytes.take (stop - position)).length) := by
  induction bytes generalizing written position with
  | nil => simp [overlay]
  | cons byte bytes ih =>
    rw [overlay]
    split
    · rename_i hbefore
      have hnext : stop - position = stop - (position + 1) + 1 := by omega
      rw [hnext, List.take_succ_cons, List.length_cons]
      split
      · rename_i hinside
        rw [ih (by simpa using Nat.succ_le_of_lt hinside)]
        have hfront : (written.toList.set position byte).take (position + 1) =
            written.toList.take position ++ [byte] := by
          rw [List.take_set, List.take_add_one,
            List.getElem?_eq_getElem (by simpa using hinside)]
          simp [List.set_append_right, Nat.min_eq_left hreached]
        rw [Array.toList_setIfInBounds, hfront, List.drop_set, if_pos (by omega)]
        simp only [List.append_assoc, List.cons_append, List.nil_append, Nat.add_assoc,
          Nat.add_comm 1]
      · rename_i houtside
        have hsame : position = written.size := by omega
        subst hsame
        rw [ih (by simp)]
        simp [List.drop_of_length_le, List.take_of_length_le, Array.toList_push]
    · rename_i hbehind
      have hnone : stop - position = 0 := by omega
      simp [hnone]

theorem size_overlay
    {written : Array UInt8} {position : Nat}
    (hreached : position ≤ written.size) (stop : Nat) (bytes : Bytes) :
    (overlay written position stop bytes).size =
      max written.size (position + (bytes.take (stop - position)).length) := by
  rw [← Array.length_toList, toList_overlay hreached]
  simp
  omega

theorem size_padTo
    (written : Array UInt8) (length : Nat) :
    (padTo written length).size = max written.size length := by
  simp [padTo]
  omega

/-- Writes from a position on, at most `length` bytes and none behind the block. -/
def write (chunk : Chunk) (start length : Nat) (bytes : Bytes) : Chunk :=
  if hinside : start < chunk.size then
    { size := chunk.size
      written := overlay (padTo chunk.written start) start (min (start + length) chunk.size) bytes
      written_le := by
        have := chunk.written_le
        rw [size_overlay (by rw [size_padTo]; omega), size_padTo, List.length_take]
        omega }
  else chunk

@[simp]
theorem toList_zeroed
    (size : Nat) :
    (zeroed size).toList = List.replicate size 0 := by
  simp [toList, zeroed]

@[simp]
theorem length_toList
    (chunk : Chunk) :
    chunk.toList.length = chunk.size := by
  have := chunk.written_le
  simp [toList]
  omega

/-- What is read is a part of the contents. -/
theorem read_eq
    (chunk : Chunk) (start length : Nat) :
    chunk.read start length = (chunk.toList.drop start).take length := by
  simp only [read, toList, Array.toList_extract, List.extract_eq_take_drop, List.drop_append,
    List.take_append, List.drop_replicate, List.take_replicate, Array.size_extract,
    List.length_drop, Array.length_toList, Nat.add_sub_cancel_left]
  congr 2
  omega

/-- Writing changes the bytes from the position on, as many as are written. -/
theorem toList_write
    {chunk : Chunk} {start length : Nat} {bytes : Bytes}
    (henough : bytes.length ≤ length) (hfits : start + bytes.length ≤ chunk.size) :
    (chunk.write start length bytes).toList =
      chunk.toList.take start ++ bytes ++ chunk.toList.drop (start + bytes.length) := by
  unfold write
  split
  · rename_i hinside
    have hreached : start ≤ (padTo chunk.written start).size := by
      rw [size_padTo]
      omega
    have hwhole : bytes.take (min (start + length) chunk.size - start) = bytes :=
      List.take_of_length_le (by omega)
    have hsize :
        (overlay (padTo chunk.written start) start (min (start + length) chunk.size) bytes).size =
          max (max chunk.written.size start) (start + bytes.length) := by
      rw [size_overlay hreached, size_padTo, hwhole]
    simp only [toList, hsize, toList_overlay hreached, hwhole]
    simp only [padTo, Array.toList_append, Array.toList_replicate, List.take_append,
      List.drop_append, List.take_replicate, List.drop_replicate, Array.length_toList,
      List.append_assoc]
    congr 1
    · congr 1
      · congr 1
        omega
      · congr 2
        have hnone : start - chunk.written.size -
            (start + bytes.length - chunk.written.size) = 0 := by omega
        rw [hnone, List.replicate_zero, List.nil_append]
        congr 1
        omega
  · rename_i houtside
    have hempty : bytes = [] := List.eq_nil_of_length_eq_zero (by omega)
    simp [hempty]

end Chunk

end LsmStore.Arena
