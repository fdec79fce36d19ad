import Mathlib.Data.Vector.Basic

/-! Packed packet layouts and the read buffer shared by both communicators.
The layouts stand under `#pragma pack(push, 1)`, so a size is the sum of the
field sizes and `SMsgBuffer` is as large as the largest member of its union. -/
namespace TestCodes.AuthProvider

abbrev Layout := List (String × ℕ)

def Layout.size : Layout → ℕ
  | [] => 0
  | (_, size) :: fields => size + Layout.size fields

def gfHeader : Layout := [("head", 1)]

def response : Layout :=
  gfHeader ++ [("result", 4), ("reason", 51), ("sessionkey", 8)]

def plssHeader : Layout := [("packet_len", 2), ("packet_type", 2)]

def loginResult : Layout := plssHeader ++ [("userName", 25), ("resultValue", 1)]

def sizeofSMsgBuffer : ℕ :=
  max gfHeader.size (max plssHeader.size (max 1 (max response.size loginResult.size)))

abbrev SMsgBuffer := List.Vector UInt8 sizeofSMsgBuffer

/-- Bytes written from the start of the buffer. What does not fit lands in
memory the model has no account of; the rest of the buffer keeps its content. -/
def SMsgBuffer.store (b : SMsgBuffer) (data : List UInt8) : SMsgBuffer :=
  ⟨(data ++ b.toList.drop data.length).take sizeofSMsgBuffer, by
    simp only [List.length_take, List.length_append, List.length_drop, List.Vector.toList_length]
    omega⟩

theorem SMsgBuffer.toList_store (b : SMsgBuffer) (data : List UInt8) :
    (b.store data).toList = (data ++ b.toList.drop data.length).take sizeofSMsgBuffer := rfl

/-- The leading bytes of the buffer are the message's own as far as it reaches. -/
theorem SMsgBuffer.take_store (b : SMsgBuffer) {data : List UInt8} {n : ℕ}
    (hn : n ≤ data.length) (hb : n ≤ sizeofSMsgBuffer) :
    (b.store data).toList.take n = data.take n := by
  rw [toList_store, List.take_take, Nat.min_eq_left hb, List.take_append_of_le_length hn]

/-- Bytes that already stand at the start of the buffer are still there after a
shorter or longer part of the same stream was written over them. -/
theorem SMsgBuffer.take_store_agree (b : SMsgBuffer) {u : List UInt8} {n m : ℕ}
    (hb : b.toList.take n = u.take n) (hn : n ≤ u.length) (hs : n ≤ sizeofSMsgBuffer) :
    (b.store (u.take m)).toList.take n = u.take n := by
  by_cases h : n ≤ m
  · have hle : n ≤ (u.take m).length := by
      rw [List.length_take]
      omega
    rw [take_store b hle hs, List.take_take, Nat.min_eq_left h]
  · have hm : (u.take m).length = m := by
      rw [List.length_take]
      omega
    rw [toList_store, hm, List.take_take, Nat.min_eq_left hs, List.take_append, hm,
      ← List.drop_take, hb, List.drop_take, List.take_take, Nat.min_eq_right (by omega)]
    calc u.take m ++ (u.drop m).take (n - m) = u.take (m + (n - m)) := List.take_add.symm
      _ = u.take n := by congr 1; omega

end TestCodes.AuthProvider
