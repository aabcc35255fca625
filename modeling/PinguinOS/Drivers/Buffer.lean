import Mathlib.Data.BitVec
import Mathlib.Tactic.Common

/-! Frames in the buffers that a driver shares with its device. -/
namespace PinguinOS.Drivers

abbrev Byte := BitVec 8

/-- The first `len` bytes of a buffer. -/
def bytes (buffer : Nat → Byte) (len : Nat) : List Byte := (List.range len).map buffer

/-- `memcpy` of a frame to the start of a buffer. -/
def fill (buffer : Nat → Byte) (frame : List Byte) : Nat → Byte :=
  fun i => frame.getD i (buffer i)

variable {buffer : Nat → Byte} {len : Nat} {frame : List Byte}

theorem length_bytes : (bytes buffer len).length = len := by
  unfold bytes
  rw [List.length_map, List.length_range]

theorem bytes_fill : bytes (fill buffer frame) frame.length = frame := by
  refine List.ext_getElem length_bytes ?_
  intro i hi hi'
  have hget : frame.getD i (buffer i) = frame[i] := by
    rw [List.getD_eq_getElem?_getD, List.getElem?_eq_getElem hi', Option.getD_some]
  simpa [bytes, fill] using hget

theorem toNat_ofNat_16 {n : Nat} (h : n < 65536) : (BitVec.ofNat 16 n).toNat = n := by
  rw [BitVec.toNat_ofNat]
  exact Nat.mod_eq_of_lt h

end PinguinOS.Drivers
