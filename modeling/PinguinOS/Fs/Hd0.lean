import PinguinOS.Drivers.Ide
import PinguinOS.Fs.Medium

/-! `/dev/hd0`: the first IDE drive as a file of bytes. -/
namespace PinguinOS.Fs

open Mm (u32 int32)
open Drivers (IdeDrive IdeDisk ideTransfer loadAll storeAll inOrder)

/-- The sectors of a request, 127 at most. -/
def hd0Count (size : Nat) : Nat :=
  let count := u32 (size + 511) / 512
  if count > 127 then 127 else count

/-- `hd0_read`; `tmp` is what its array holds before. -/
def hd0Read (fails : Nat → Bool) (d : IdeDrive) (disk : IdeDisk) (tmp : Buffer)
    (offset size : Nat) : ReadResult :=
  let lba := offset / 512
  let count := hd0Count size
  match ideTransfer fails d (BitVec.ofNat 32 lba) (BitVec.ofNat 8 count) 0 0 with
  | (false, _) => readFailed
  | (true, ts) =>
    let copy := count * 512
    let copy := if copy > size then size else copy
    (int32 copy, bytesAt (loadAll disk ts tmp) 0 copy)

/-- What `hd0_write` returns, the drive after it, and how many bytes of the caller's buffer it
reads. -/
structure Hd0Written where
  result : Int
  disk : IdeDisk
  reads : Nat

def hd0Write (fails : Nat → Bool) (d : IdeDrive) (disk : IdeDisk) (tmp : Buffer)
    (offset size : Nat) (buf : Buffer) : Hd0Written :=
  let lba := offset / 512
  let count := hd0Count size
  let tmp : Buffer := fun i => if i < count * 512 then buf i else tmp i
  let (ok, ts) := ideTransfer fails d (BitVec.ofNat 32 lba) (BitVec.ofNat 8 count) 0 0
  ⟨if ok then int32 (count * 512) else -1, storeAll tmp ts disk, count * 512⟩

/-- Byte `p` of the drive. -/
def sectorByte (disk : IdeDisk) (p : Nat) : BitVec 8 := disk (p / 512) (p % 512)

/-- Without an error a read returns bytes of the drive from `offset` on, some if any are wanted. -/
def ReadsBytes (offset size : Nat) : Prop :=
  ∀ (fails : Nat → Bool) (d : IdeDrive) (disk : IdeDisk) (tmp : Buffer),
    (∀ k, fails k = false) → d.present = true → ∃ n ≤ size, (0 < size → 0 < n) ∧
      hd0Read fails d disk tmp offset size = ((n : Int), bytesAt (sectorByte disk) offset n)

/-- Without an error a write changes the bytes that it counts, and no other ones. -/
def WritesBytes (offset size : Nat) : Prop :=
  ∀ (fails : Nat → Bool) (d : IdeDrive) (disk : IdeDisk) (tmp buf : Buffer),
    (∀ k, fails k = false) → d.present = true → ∃ n ≤ size,
      (hd0Write fails d disk tmp offset size buf).result = (n : Int) ∧
      (hd0Write fails d disk tmp offset size buf).reads ≤ size ∧
      ∀ p, sectorByte (hd0Write fails d disk tmp offset size buf).disk p =
        if offset ≤ p ∧ p < offset + n then buf (p - offset) else sectorByte disk p

/-- Reads and writes at this place are those of a byte device. -/
structure ByteDevice (offset size : Nat) : Prop where
  read : ReadsBytes offset size
  write : WritesBytes offset size

variable {fails : Nat → Bool} {d : IdeDrive} {disk : IdeDisk} {tmp buf : Buffer}
  {offset size count : Nat}

theorem hd0Count_le : hd0Count size ≤ 127 := by
  unfold hd0Count
  dsimp only
  split
  · exact Nat.le_refl _
  · omega

/-- A size without a sector is 0, or so large that its rounding wraps. -/
theorem hd0Count_eq_zero (hsize : size < 2 ^ 32) :
    hd0Count size = 0 ↔ size = 0 ∨ 2 ^ 32 ≤ size + 511 := by
  unfold hd0Count u32
  dsimp only
  split <;> omega

theorem hd0Count_fits (hpos : hd0Count size ≠ 0) (hsize : size < 2 ^ 32) :
    hd0Count size * 512 ≤ size ↔ size % 512 = 0 ∨ 127 * 512 ≤ size := by
  have hroom : size + 511 < 2 ^ 32 := by
    by_contra hwrap
    exact hpos ((hd0Count_eq_zero hsize).mpr (Or.inr (Nat.not_lt.mp hwrap)))
  unfold hd0Count u32
  dsimp only
  split <;> omega

/-- The sectors that a call moves when nothing fails. -/
theorem transfer_hd0 (hok : ∀ k, fails k = false) (hd : d.present = true)
    (hoffset : offset < 2 ^ 32) (hcount : count ≤ 127) :
    ideTransfer fails d (BitVec.ofNat 32 (offset / 512)) (BitVec.ofNat 8 count) 0 0 =
      (true, inOrder (offset / 512) 0 count) := by
  have hlba : (BitVec.ofNat 32 (offset / 512)).toNat % 2 ^ 28 = offset / 512 := by
    rw [BitVec.toNat_ofNat]
    omega
  have hsectors : (BitVec.ofNat 8 count).toNat = count := by
    rw [BitVec.toNat_ofNat]
    omega
  rw [Drivers.ideTransfer_ok hd hok, hlba, hsectors]

/-! Reads. -/

theorem hd0Read_ok (hok : ∀ k, fails k = false) (hd : d.present = true)
    (hoffset : offset < 2 ^ 32) : hd0Read fails d disk tmp offset size =
      (((min (hd0Count size * 512) size : Nat) : Int),
        bytesAt (sectorByte disk) (offset / 512 * 512) (min (hd0Count size * 512) size)) := by
  have hcount := @hd0Count_le size
  have hcopy : (if hd0Count size * 512 > size then size else hd0Count size * 512) =
      min (hd0Count size * 512) size := by
    split <;> omega
  unfold hd0Read
  dsimp only
  rw [transfer_hd0 hok hd hoffset hcount]
  dsimp only
  rw [hcopy]
  refine Prod.ext (Mm.int32_of_lt (by omega)) (bytesAt_congr fun i hi => ?_)
  have hin : 0 ≤ 0 + i ∧ 0 + i < 0 + hd0Count size * Drivers.ideSectorSize := by
    unfold Drivers.ideSectorSize
    omega
  rw [Drivers.loadAll_inOrder, if_pos hin]
  unfold sectorByte Drivers.ideSectorSize
  rw [show (offset / 512 * 512 + i) / 512 = offset / 512 + (0 + i - 0) / 512 by omega,
    show (offset / 512 * 512 + i) % 512 = (0 + i - 0) % 512 by omega]

/-- Reads are those of a byte device where the sector starts at the offset and the size can be
rounded up. -/
theorem readsBytes_iff (hoffset : offset < 2 ^ 32) (hsize : size < 2 ^ 32) :
    ReadsBytes offset size ↔ size = 0 ∨ offset % 512 = 0 ∧ size + 511 < 2 ^ 32 := by
  have hzero := hd0Count_eq_zero hsize
  constructor
  · intro h
    by_cases hnone : size = 0
    · exact Or.inl hnone
    -- a drive whose only byte that is not 0 lies at the offset
    obtain ⟨n, -, hsome, hread⟩ := h (fun _ => false) ⟨true, 0⟩
      (fun s j => if s * 512 + j = offset then 1 else 0) (fun _ => 0) (fun _ => rfl) rfl
    rw [hd0Read_ok (fun _ => rfl) rfl hoffset] at hread
    obtain ⟨hn, hbytes⟩ := Prod.mk.inj hread
    have hn : min (hd0Count size * 512) size = n := Int.ofNat.inj hn
    have hpos := hsome (Nat.pos_of_ne_zero hnone)
    refine Or.inr ⟨?_, by omega⟩
    rw [hn] at hbytes
    obtain ⟨n, rfl⟩ := Nat.exists_eq_succ_of_ne_zero (Nat.ne_of_gt hpos)
    have hfirst := congrArg (fun l => l.getD 0 0) hbytes
    unfold bytesAt sectorByte at hfirst
    rw [List.range_succ_eq_map, List.map_cons, List.map_cons, List.getD_cons_zero,
      List.getD_cons_zero] at hfirst
    dsimp only at hfirst
    by_contra hoff
    rw [if_neg (by omega), if_pos (by omega)] at hfirst
    exact absurd hfirst (by decide)
  · intro h fails d disk tmp hok hd
    refine ⟨min (hd0Count size * 512) size, Nat.min_le_right _ _, by omega, ?_⟩
    rw [hd0Read_ok hok hd hoffset]
    rcases h with rfl | ⟨halign, -⟩
    · rw [Nat.min_zero]
      rfl
    · rw [show offset / 512 * 512 = offset by omega]

/-! Writes. -/

theorem hd0Write_ok (hok : ∀ k, fails k = false) (hd : d.present = true)
    (hoffset : offset < 2 ^ 32) :
    (hd0Write fails d disk tmp offset size buf).result = ((hd0Count size * 512 : Nat) : Int) ∧
      (hd0Write fails d disk tmp offset size buf).reads = hd0Count size * 512 ∧
      ∀ p, sectorByte (hd0Write fails d disk tmp offset size buf).disk p =
        if offset / 512 * 512 ≤ p ∧ p < offset / 512 * 512 + hd0Count size * 512 then
          buf (p - offset / 512 * 512)
        else sectorByte disk p := by
  have hcount := @hd0Count_le size
  unfold hd0Write
  dsimp only
  rw [transfer_hd0 hok hd hoffset hcount]
  refine ⟨Mm.int32_of_lt (by omega), rfl, fun p => ?_⟩
  unfold sectorByte
  dsimp only
  rw [Drivers.storeAll_inOrder]
  unfold Drivers.ideSectorSize
  by_cases hin : offset / 512 ≤ p / 512 ∧ p / 512 < offset / 512 + hd0Count size
  · have hplace : 0 + (p / 512 - offset / 512) * 512 + p % 512 = p - offset / 512 * 512 := by
      omega
    rw [if_pos hin, hplace, if_pos (by omega), if_pos (by omega)]
  · rw [if_neg hin, if_neg (by omega)]

/-- Writes are those of a byte device where nothing is written, or whole sectors of the request
are. -/
theorem writesBytes_iff (hoffset : offset < 2 ^ 32) : WritesBytes offset size ↔
    hd0Count size = 0 ∨ offset % 512 = 0 ∧ hd0Count size * 512 ≤ size := by
  constructor
  · intro h
    by_cases hnone : hd0Count size = 0
    · exact Or.inl hnone
    obtain ⟨n, hn, hresult, -, hbytes⟩ := h (fun _ => false) ⟨true, 0⟩ (fun _ _ => 0)
      (fun _ => 0) (fun _ => 1) (fun _ => rfl) rfl
    obtain ⟨hcount, -, hchanged⟩ := @hd0Write_ok (fun _ => false) ⟨true, 0⟩ (fun _ _ => 0)
      (fun _ => 0) (fun _ => 1) offset size (fun _ => rfl) rfl hoffset
    have hn' : hd0Count size * 512 = n := Int.ofNat.inj (hcount.symm.trans hresult)
    refine Or.inr ⟨?_, by omega⟩
    -- the first byte of the sector becomes 1
    have hfirst := (hchanged (offset / 512 * 512)).symm.trans (hbytes (offset / 512 * 512))
    rw [if_pos (by omega)] at hfirst
    by_contra hoff
    rw [if_neg (by omega)] at hfirst
    exact absurd hfirst (by decide : ¬ (1 : BitVec 8) = 0)
  · intro h fails d disk tmp buf hok hd
    obtain ⟨hresult, hreads, hbytes⟩ :=
      @hd0Write_ok fails d disk tmp buf offset size hok hd hoffset
    refine ⟨hd0Count size * 512, by omega, hresult, by omega, fun p => (hbytes p).trans ?_⟩
    rcases h with hnone | ⟨halign, -⟩
    · rw [if_neg (by omega), if_neg (by omega)]
    · rw [show offset / 512 * 512 = offset by omega]

/-- `/dev/hd0` is a byte device just for requests of whole sectors, of which it serves the first
127. -/
theorem byteDevice_iff (hoffset : offset < 2 ^ 32) (hsize : size < 2 ^ 32) :
    ByteDevice offset size ↔ size = 0 ∨
      offset % 512 = 0 ∧ size + 511 < 2 ^ 32 ∧ (size % 512 = 0 ∨ 127 * 512 ≤ size) := by
  have hzero := hd0Count_eq_zero hsize
  have hboth : ByteDevice offset size ↔ ReadsBytes offset size ∧ WritesBytes offset size :=
    ⟨fun h => ⟨h.read, h.write⟩, fun h => ⟨h.1, h.2⟩⟩
  rw [hboth, readsBytes_iff hoffset hsize, writesBytes_iff hoffset]
  by_cases hnone : hd0Count size = 0
  · omega
  · rw [hd0Count_fits hnone hsize]
    omega

theorem byteDevice_sector : ByteDevice 1024 512 :=
  (byteDevice_iff (by decide) (by decide)).mpr (Or.inr (by decide))

/-- A byte in the middle of a sector. -/
theorem not_byteDevice_middle :
    ¬ ∀ offset < 2 ^ 32, ∀ size < 2 ^ 32, ByteDevice offset size := by
  intro hall
  have hone := hall 100 (by decide) 1 (by decide)
  exact absurd ((readsBytes_iff (by decide) (by decide)).mp hone.read) (by decide)

end PinguinOS.Fs
