import Mathlib.Tactic.IntervalCases
import PinguinOS.Lib.Sweep
import PinguinOS.Lib.Bytes

/-! The enumeration of the PCI bus: `pci.c`. -/
namespace PinguinOS.Drivers

open Bytes (ofBytes byteOf)

def pciRegVendorId : BitVec 8 := 0x00
def pciRegDeviceId : BitVec 8 := 0x02
def pciRegCommand : BitVec 8 := 0x04
def pciRegRevision : BitVec 8 := 0x08
def pciRegProgIf : BitVec 8 := 0x09
def pciRegSubclass : BitVec 8 := 0x0A
def pciRegClass : BitVec 8 := 0x0B
def pciRegHeaderType : BitVec 8 := 0x0E
def pciRegBar0 : BitVec 8 := 0x10
def pciRegIntLine : BitVec 8 := 0x3C
def pciRegIntPin : BitVec 8 := 0x3D

def pciCmdBusMaster : BitVec 16 := 1 <<< 2
def pciVendorNone : BitVec 16 := 0xFFFF
def pciMaxBus : Nat := 256
def pciMaxDevice : Nat := 32
def pciMaxFunction : Nat := 8
def pciMaxDevices : Nat := 64

/-- What is read at `PCI_CFG_DATA` for each value of `PCI_CFG_ADDR`. -/
abbrev ConfigPort := BitVec 32 → BitVec 32

def pciAddr (bus dev func reg : BitVec 8) : BitVec 32 :=
  1 <<< 31 ||| bus.setWidth 32 <<< 16 ||| dev.setWidth 32 <<< 11 ||| func.setWidth 32 <<< 8 |||
    reg.setWidth 32 &&& 0xFC

def pciRead32 (port : ConfigPort) (bus dev func reg : BitVec 8) : BitVec 32 :=
  port (pciAddr bus dev func reg)

def pciRead16 (port : ConfigPort) (bus dev func reg : BitVec 8) : BitVec 16 :=
  let val := pciRead32 port bus dev func (reg &&& ~~~3)
  (val >>> ((reg &&& 2).toNat * 8)).setWidth 16

def pciRead8 (port : ConfigPort) (bus dev func reg : BitVec 8) : BitVec 8 :=
  let val := pciRead32 port bus dev func (reg &&& ~~~3)
  (val >>> ((reg &&& 3).toNat * 8)).setWidth 8

/-- `pci_device_t` -/
structure PciDevice where
  bus : BitVec 8
  device : BitVec 8
  function : BitVec 8
  vendorId : BitVec 16
  deviceId : BitVec 16
  classCode : BitVec 8
  subclass : BitVec 8
  progIf : BitVec 8
  revision : BitVec 8
  headerType : BitVec 8
  intLine : BitVec 8
  intPin : BitVec 8
  bar : List (BitVec 32)
  deriving DecidableEq

def pciReadDevice (port : ConfigPort) (bus dev func : BitVec 8) : PciDevice where
  bus := bus
  device := dev
  function := func
  vendorId := pciRead16 port bus dev func pciRegVendorId
  deviceId := pciRead16 port bus dev func pciRegDeviceId
  classCode := pciRead8 port bus dev func pciRegClass
  subclass := pciRead8 port bus dev func pciRegSubclass
  progIf := pciRead8 port bus dev func pciRegProgIf
  revision := pciRead8 port bus dev func pciRegRevision
  headerType := pciRead8 port bus dev func pciRegHeaderType
  intLine := pciRead8 port bus dev func pciRegIntLine
  intPin := pciRead8 port bus dev func pciRegIntPin
  bar := (List.range 6).map fun i => pciRead32 port bus dev func (pciRegBar0 + BitVec.ofNat 8 (i * 4))

/-- `pci_check_function`; the table is `devices` up to `device_count`. -/
def pciCheckFunction (port : ConfigPort) (devices : List PciDevice) (bus dev func : BitVec 8) :
    List PciDevice :=
  if pciRead16 port bus dev func pciRegVendorId = pciVendorNone then devices
  else if devices.length ≥ pciMaxDevices then devices
  else devices ++ [pciReadDevice port bus dev func]

def pciMaxFunc (port : ConfigPort) (bus dev : BitVec 8) : Nat :=
  if pciRead8 port bus dev 0 pciRegHeaderType &&& 0x80 ≠ 0 then pciMaxFunction else 1

/-- One round of the loop over the devices of a bus. -/
def pciCheckDevice (port : ConfigPort) (devices : List PciDevice) (bus dev : BitVec 8) :
    List PciDevice :=
  if pciRead16 port bus dev 0 pciRegVendorId = pciVendorNone then devices
  else
    (List.range (pciMaxFunc port bus dev)).foldl
      (fun devices func => pciCheckFunction port devices bus dev (BitVec.ofNat 8 func)) devices

def pciInit (port : ConfigPort) : List PciDevice :=
  (List.range pciMaxBus).foldl (fun devices bus =>
    (List.range pciMaxDevice).foldl (fun devices dev =>
      pciCheckDevice port devices (BitVec.ofNat 8 bus) (BitVec.ofNat 8 dev)) devices) []

def pciFindClass (devices : List PciDevice) (classCode subclass : BitVec 8) : Option PciDevice :=
  devices.find? fun d => d.classCode == classCode && d.subclass == subclass

def pciFindDevice (devices : List PciDevice) (vendor deviceId : BitVec 16) : Option PciDevice :=
  devices.find? fun d => d.vendorId == vendor && d.deviceId == deviceId

/-- `pci_enable_bus_master`: the address and the value that it writes, if any. -/
def pciEnableBusMaster (port : ConfigPort) (d : PciDevice) : Option (BitVec 32 × BitVec 32) :=
  let cmd := pciRead16 port d.bus d.device d.function pciRegCommand
  if cmd &&& pciCmdBusMaster = 0 then
    some (pciAddr d.bus d.device d.function pciRegCommand, (cmd ||| pciCmdBusMaster).setWidth 32)
  else none

/-! The bus itself. -/

/-- The registers of all functions: bus, device, function and offset. -/
abbrev ConfigSpace := BitVec 8 → BitVec 5 → BitVec 3 → BitVec 8 → BitVec 8

/-- The host bridge selects four bytes by the fields of the address. -/
def ConfigSpace.port (space : ConfigSpace) : ConfigPort := fun addr =>
  if addr.getLsbD 31 then
    ofBytes fun j => space (addr.extractLsb' 16 8) (addr.extractLsb' 11 5) (addr.extractLsb' 8 3)
      ((addr.extractLsb' 2 6 ++ (0 : BitVec 2)) + BitVec.ofNat 8 j)
  else BitVec.allOnes 32

/-! The device table has the functions that are on the bus, in the order of their addresses. -/

variable {space : ConfigSpace} {bus dev func reg : BitVec 8} {devices : List PciDevice} {j : Nat}

/-! The address. -/

theorem getLsbD_of_small {v : BitVec 8} {n : Nat} (h : v.toNat < 2 ^ n) (hj : n ≤ j) :
    v.getLsbD j = false := by
  unfold BitVec.getLsbD
  exact Nat.testBit_lt_two_pow (Nat.lt_of_lt_of_le h (Nat.pow_le_pow_right (by decide) hj))

theorem pciAddr_enable : (pciAddr bus dev func reg).getLsbD 31 = true := by
  unfold pciAddr
  simp

theorem pciAddr_bus (hdev : dev.toNat < 2 ^ 5) : (pciAddr bus dev func reg).extractLsb' 16 8 = bus := by
  unfold pciAddr
  apply BitVec.eq_of_getLsbD_eq
  intro k hk
  have hhigh := getLsbD_of_small hdev (show 5 ≤ 5 + k by omega)
  interval_cases k <;> simp_all

theorem pciAddr_dev (hfunc : func.toNat < 2 ^ 3) :
    (pciAddr bus dev func reg).extractLsb' 11 5 = dev.setWidth 5 := by
  unfold pciAddr
  apply BitVec.eq_of_getLsbD_eq
  intro k hk
  have hhigh := getLsbD_of_small hfunc (show 3 ≤ 3 + k by omega)
  interval_cases k <;> simp_all

theorem pciAddr_func : (pciAddr bus dev func reg).extractLsb' 8 3 = func.setWidth 3 := by
  unfold pciAddr
  apply BitVec.eq_of_getLsbD_eq
  intro k hk
  interval_cases k <;> simp

theorem pciAddr_reg :
    (pciAddr bus dev func reg).extractLsb' 2 6 ++ (0 : BitVec 2) = reg &&& ~~~3 := by
  unfold pciAddr
  apply BitVec.eq_of_getLsbD_eq
  intro k hk
  rw [BitVec.getLsbD_append, BitVec.getLsbD_extractLsb']
  interval_cases k <;> simp

/-- The four bytes at an address, whose last two bits do not count. -/
theorem pciRead32_eq (hdev : dev.toNat < 2 ^ 5) (hfunc : func.toNat < 2 ^ 3) :
    pciRead32 space.port bus dev func reg =
      ofBytes fun j => space bus (dev.setWidth 5) (func.setWidth 3) ((reg &&& ~~~3) + BitVec.ofNat 8 j) := by
  unfold pciRead32 ConfigSpace.port
  rw [if_pos pciAddr_enable, pciAddr_bus hdev, pciAddr_dev hfunc, pciAddr_func, pciAddr_reg]

theorem setWidth_shift {w : BitVec 32} : (w >>> (j * 8)).setWidth 8 = byteOf w j := by
  unfold byteOf
  apply BitVec.eq_of_getLsbD_eq
  intro k hk
  rw [BitVec.getLsbD_setWidth, BitVec.getLsbD_ushiftRight, BitVec.getLsbD_extractLsb', Nat.mul_comm]

theorem setWidth_shift_two {w : BitVec 32} :
    (w >>> (j * 8)).setWidth 16 = byteOf w (j + 1) ++ byteOf w j := by
  unfold byteOf
  apply BitVec.eq_of_getLsbD_eq
  intro k hk
  rw [BitVec.getLsbD_setWidth, BitVec.getLsbD_ushiftRight, BitVec.getLsbD_append,
    BitVec.getLsbD_extractLsb', BitVec.getLsbD_extractLsb']
  by_cases hlow : k < 8
  · rw [if_pos hlow, show j * 8 + k = 8 * j + k by omega]
    simp [hlow, show k < 16 by omega]
  · rw [if_neg hlow, show j * 8 + k = 8 * (j + 1) + (k - 8) by omega]
    simp [show k < 16 by omega, show k - 8 < 8 by omega]

theorem reg_byte : ∀ reg : BitVec 8, (reg &&& 3).toNat < 4 ∧
    (reg &&& ~~~3) + BitVec.ofNat 8 (reg &&& 3).toNat = reg := by
  decide +kernel

theorem reg_word : ∀ reg : BitVec 8, reg &&& 1 = 0 → (reg &&& 2).toNat < 3 ∧
    (reg &&& ~~~3) + BitVec.ofNat 8 (reg &&& 2).toNat = reg ∧
    (reg &&& ~~~3) + BitVec.ofNat 8 ((reg &&& 2).toNat + 1) = reg + 1 := by
  decide +kernel

theorem reg_aligned : ∀ reg : BitVec 8, reg &&& ~~~3 &&& ~~~3 = reg &&& ~~~3 := by
  decide +kernel

theorem pciRead8_eq (hdev : dev.toNat < 2 ^ 5) (hfunc : func.toNat < 2 ^ 3) :
    pciRead8 space.port bus dev func reg = space bus (dev.setWidth 5) (func.setWidth 3) reg := by
  obtain ⟨hlt, hreg⟩ := reg_byte reg
  unfold pciRead8
  dsimp only
  rw [pciRead32_eq hdev hfunc, setWidth_shift, Bytes.byteOf_ofBytes hlt, reg_aligned, hreg]

/-- Registers of two bytes have even offsets. -/
theorem pciRead16_eq (hdev : dev.toNat < 2 ^ 5) (hfunc : func.toNat < 2 ^ 3) (heven : reg &&& 1 = 0) :
    pciRead16 space.port bus dev func reg =
      space bus (dev.setWidth 5) (func.setWidth 3) (reg + 1) ++
        space bus (dev.setWidth 5) (func.setWidth 3) reg := by
  obtain ⟨hlt, hlow, hhigh⟩ := reg_word reg heven
  unfold pciRead16
  dsimp only
  rw [pciRead32_eq hdev hfunc, setWidth_shift_two, Bytes.byteOf_ofBytes (by omega),
    Bytes.byteOf_ofBytes (by omega), reg_aligned, hlow, hhigh]

/-! The functions on the bus. -/

/-- Two bytes of a function. -/
def ConfigSpace.word (space : ConfigSpace) (b d f : Nat) (reg : BitVec 8) : BitVec 16 :=
  space (BitVec.ofNat 8 b) (BitVec.ofNat 5 d) (BitVec.ofNat 3 f) (reg + 1) ++
    space (BitVec.ofNat 8 b) (BitVec.ofNat 5 d) (BitVec.ofNat 3 f) reg

def ConfigSpace.Answers (space : ConfigSpace) (b d f : Nat) : Prop :=
  space.word b d f pciRegVendorId ≠ pciVendorNone

instance {b d f : Nat} : Decidable (space.Answers b d f) := inferInstanceAs (Decidable (_ ≠ _))

/-- The device says that it has several functions. -/
def ConfigSpace.Several (space : ConfigSpace) (b d : Nat) : Prop :=
  space (BitVec.ofNat 8 b) (BitVec.ofNat 5 d) 0 pciRegHeaderType &&& 0x80 ≠ 0

instance {b d : Nat} : Decidable (space.Several b d) := inferInstanceAs (Decidable (_ ≠ _))

/-- The function is there: it answers, its device answers, and it is the first or one of several. -/
def ConfigSpace.Present (space : ConfigSpace) (b d f : Nat) : Prop :=
  space.Answers b d 0 ∧ space.Answers b d f ∧ (f = 0 ∨ space.Several b d)

instance {b d f : Nat} : Decidable (space.Present b d f) :=
  inferInstanceAs (Decidable (_ ∧ _ ∧ _))

/-- All functions that are there, in the order of their addresses. -/
def ConfigSpace.present (space : ConfigSpace) : List (Nat × Nat × Nat) :=
  (List.range pciMaxBus).flatMap fun b => (List.range pciMaxDevice).flatMap fun d =>
    ((List.range pciMaxFunction).filter fun f => space.Present b d f).map fun f => (b, d, f)

/-- The registers of a function. -/
def ConfigSpace.device (space : ConfigSpace) : Nat × Nat × Nat → PciDevice := fun a =>
  let byte := space (BitVec.ofNat 8 a.1) (BitVec.ofNat 5 a.2.1) (BitVec.ofNat 3 a.2.2)
  { bus := BitVec.ofNat 8 a.1
    device := BitVec.ofNat 8 a.2.1
    function := BitVec.ofNat 8 a.2.2
    vendorId := space.word a.1 a.2.1 a.2.2 pciRegVendorId
    deviceId := space.word a.1 a.2.1 a.2.2 pciRegDeviceId
    classCode := byte pciRegClass
    subclass := byte pciRegSubclass
    progIf := byte pciRegProgIf
    revision := byte pciRegRevision
    headerType := byte pciRegHeaderType
    intLine := byte pciRegIntLine
    intPin := byte pciRegIntPin
    bar := (List.range 6).map fun i =>
      ofBytes fun j => byte (pciRegBar0 + BitVec.ofNat 8 (i * 4) + BitVec.ofNat 8 j) }

variable {b d f : Nat}

theorem mem_present : (b, d, f) ∈ space.present ↔
    b < pciMaxBus ∧ d < pciMaxDevice ∧ f < pciMaxFunction ∧ space.Present b d f := by
  unfold ConfigSpace.present
  simp only [List.mem_flatMap, List.mem_map, List.mem_filter, List.mem_range, decide_eq_true_eq,
    Prod.mk.injEq]
  constructor
  · rintro ⟨b, hb, d, hd, f, ⟨hf, hpresent⟩, rfl, rfl, rfl⟩
    exact ⟨hb, hd, hf, hpresent⟩
  · rintro ⟨hb, hd, hf, hpresent⟩
    exact ⟨b, hb, d, hd, f, ⟨hf, hpresent⟩, rfl, rfl, rfl⟩

theorem present_nodup : space.present.Nodup := by
  have hdistinct : ∀ n, (List.range n).Pairwise (· ≠ ·) := fun n => List.nodup_range
  unfold ConfigSpace.present
  refine List.nodup_flatMap.mpr ⟨fun b _ => List.nodup_flatMap.mpr ⟨fun d _ => ?_, ?_⟩, ?_⟩
  · refine (List.nodup_range.filter _).map fun f g h => ?_
    exact congrArg (fun a => a.2.2) h
  · refine (hdistinct _).imp fun {d e} hne a ha ha' => hne ?_
    obtain ⟨f, -, rfl⟩ := List.mem_map.mp ha
    obtain ⟨g, -, heq⟩ := List.mem_map.mp ha'
    exact (congrArg (fun a => a.2.1) heq).symm
  · refine (hdistinct _).imp fun {b c} hne a ha ha' => hne ?_
    obtain ⟨d, -, ha⟩ := List.mem_flatMap.mp ha
    obtain ⟨e, -, ha'⟩ := List.mem_flatMap.mp ha'
    obtain ⟨f, -, rfl⟩ := List.mem_map.mp ha
    obtain ⟨g, -, heq⟩ := List.mem_map.mp ha'
    exact (congrArg (fun a => a.1) heq).symm

theorem width5 (hd : d < pciMaxDevice) : (BitVec.ofNat 8 d).toNat < 2 ^ 5 ∧
    (BitVec.ofNat 8 d).setWidth 5 = BitVec.ofNat 5 d := by
  unfold pciMaxDevice at hd
  refine ⟨?_, BitVec.eq_of_toNat_eq ?_⟩
  · rw [BitVec.toNat_ofNat]
    omega
  · rw [BitVec.toNat_setWidth, BitVec.toNat_ofNat, BitVec.toNat_ofNat]
    omega

theorem width3 (hf : f < pciMaxFunction) : (BitVec.ofNat 8 f).toNat < 2 ^ 3 ∧
    (BitVec.ofNat 8 f).setWidth 3 = BitVec.ofNat 3 f := by
  unfold pciMaxFunction at hf
  refine ⟨?_, BitVec.eq_of_toNat_eq ?_⟩
  · rw [BitVec.toNat_ofNat]
    omega
  · rw [BitVec.toNat_setWidth, BitVec.toNat_ofNat, BitVec.toNat_ofNat]
    omega

theorem read_word (hd : d < pciMaxDevice) (hf : f < pciMaxFunction) (heven : reg &&& 1 = 0) :
    pciRead16 space.port (BitVec.ofNat 8 b) (BitVec.ofNat 8 d) (BitVec.ofNat 8 f) reg =
      space.word b d f reg := by
  obtain ⟨hdev, hdev'⟩ := width5 hd
  obtain ⟨hfunc, hfunc'⟩ := width3 hf
  rw [pciRead16_eq hdev hfunc heven, hdev', hfunc']
  rfl

theorem read_byte (hd : d < pciMaxDevice) (hf : f < pciMaxFunction) :
    pciRead8 space.port (BitVec.ofNat 8 b) (BitVec.ofNat 8 d) (BitVec.ofNat 8 f) reg =
      space (BitVec.ofNat 8 b) (BitVec.ofNat 5 d) (BitVec.ofNat 3 f) reg := by
  obtain ⟨hdev, hdev'⟩ := width5 hd
  obtain ⟨hfunc, hfunc'⟩ := width3 hf
  rw [pciRead8_eq hdev hfunc, hdev', hfunc']

theorem bar_aligned : ∀ i < 6, (pciRegBar0 + BitVec.ofNat 8 (i * 4)) &&& ~~~3 =
    pciRegBar0 + BitVec.ofNat 8 (i * 4) := by
  decide

theorem readDevice_eq (hd : d < pciMaxDevice) (hf : f < pciMaxFunction) :
    pciReadDevice space.port (BitVec.ofNat 8 b) (BitVec.ofNat 8 d) (BitVec.ofNat 8 f) =
      space.device (b, d, f) := by
  obtain ⟨hdev, hdev'⟩ := width5 hd
  obtain ⟨hfunc, hfunc'⟩ := width3 hf
  have hbar : ∀ i ∈ List.range 6, pciRead32 space.port (BitVec.ofNat 8 b) (BitVec.ofNat 8 d)
      (BitVec.ofNat 8 f) (pciRegBar0 + BitVec.ofNat 8 (i * 4)) = ofBytes fun j =>
        space (BitVec.ofNat 8 b) (BitVec.ofNat 5 d) (BitVec.ofNat 3 f)
          (pciRegBar0 + BitVec.ofNat 8 (i * 4) + BitVec.ofNat 8 j) := by
    intro i hi
    rw [pciRead32_eq hdev hfunc, hdev', hfunc', bar_aligned i (List.mem_range.mp hi)]
  unfold pciReadDevice ConfigSpace.device
  rw [read_word hd hf (by decide), read_word hd hf (by decide), read_byte hd hf, read_byte hd hf,
    read_byte hd hf, read_byte hd hf, read_byte hd hf, read_byte hd hf, read_byte hd hf,
    List.map_congr_left hbar]

/-- Functions that answer are pushed. -/
theorem checkFunction_eq (hd : d < pciMaxDevice) (hf : f < pciMaxFunction) :
    pciCheckFunction space.port devices (BitVec.ofNat 8 b) (BitVec.ofNat 8 d) (BitVec.ofNat 8 f) =
      if space.Answers b d f then Capped.push pciMaxDevices devices (space.device (b, d, f))
      else devices := by
  unfold pciCheckFunction ConfigSpace.Answers
  rw [read_word hd hf (by decide), readDevice_eq hd hf]
  exact (ite_not _ _ _).symm

theorem maxFunc_eq (hd : d < pciMaxDevice) :
    pciMaxFunc space.port (BitVec.ofNat 8 b) (BitVec.ofNat 8 d) =
      if space.Several b d then pciMaxFunction else 1 := by
  have hread : pciRead8 space.port (BitVec.ofNat 8 b) (BitVec.ofNat 8 d) 0 pciRegHeaderType =
      space (BitVec.ofNat 8 b) (BitVec.ofNat 5 d) 0 pciRegHeaderType :=
    @read_byte space pciRegHeaderType b d 0 hd (by decide)
  unfold pciMaxFunc
  rw [hread]
  rfl

/-- The functions of a device that are tried and answer are those that are there. -/
theorem filter_present (hfirst : space.Answers b d 0) :
    (List.range (if space.Several b d then pciMaxFunction else 1)).filter
        (fun f => space.Answers b d f) =
      (List.range pciMaxFunction).filter fun f => space.Present b d f := by
  have hpresent : ∀ f, space.Present b d f ↔ space.Answers b d f ∧ (f = 0 ∨ space.Several b d) :=
    fun f => and_iff_right hfirst
  split
  case isTrue hseveral =>
    refine List.filter_congr fun f _ => decide_eq_decide.mpr ?_
    rw [hpresent]
    exact (and_iff_left (.inr hseveral)).symm
  case isFalse hone =>
    have hrest : ∀ f ∈ (List.range 7).map Nat.succ, ¬ space.Present b d f := by
      intro f hf hp
      obtain ⟨k, -, rfl⟩ := List.mem_map.mp hf
      rcases ((hpresent _).mp hp).2 with hzero | hseveral
      · exact absurd hzero (Nat.succ_ne_zero k)
      · exact hone hseveral
    have hnone : ((List.range 7).map Nat.succ).filter (fun f => space.Present b d f) = [] :=
      List.filter_eq_nil_iff.mpr fun f hf => by simpa using hrest f hf
    have hzero : space.Present b d 0 := (hpresent 0).mpr ⟨hfirst, .inl rfl⟩
    rw [show pciMaxFunction = 7 + 1 from rfl, List.range_succ_eq_map (n := 7), List.filter_cons,
      hnone, decide_eq_true hzero, if_pos rfl, show List.range 1 = [0] from rfl,
      List.filter_cons, decide_eq_true hfirst, if_pos rfl, List.filter_nil]

theorem checkDevice_eq (hd : d < pciMaxDevice) :
    pciCheckDevice space.port devices (BitVec.ofNat 8 b) (BitVec.ofNat 8 d) =
      (((List.range pciMaxFunction).filter fun f => space.Present b d f).map fun f => (b, d, f)).foldl
        (fun devices a => Capped.push pciMaxDevices devices (space.device a)) devices := by
  have hvendor : pciRead16 space.port (BitVec.ofNat 8 b) (BitVec.ofNat 8 d) 0 pciRegVendorId =
      space.word b d 0 pciRegVendorId := @read_word space pciRegVendorId b d 0 hd (by decide) (by decide)
  rw [List.foldl_map]
  unfold pciCheckDevice
  rw [hvendor]
  split
  case isTrue hnone =>
    have hempty : (List.range pciMaxFunction).filter (fun f => space.Present b d f) = [] :=
      List.filter_eq_nil_iff.mpr fun f _ => by
        rw [decide_eq_true_eq]
        exact fun hp => hp.1 hnone
    rw [hempty, List.foldl_nil]
  case isFalse hfirst =>
    rw [maxFunc_eq hd, ← filter_present hfirst, List.foldl_filter]
    refine List.foldl_ext _ _ _ fun t f hf => ?_
    have hlt : f < pciMaxFunction := by
      have hf := List.mem_range.mp hf
      split at hf
      · exact hf
      · exact lt_of_lt_of_le hf (by decide)
    rw [checkFunction_eq hd hlt]
    simp only [decide_eq_true_eq]

theorem pciInit_eq (space : ConfigSpace) :
    pciInit space.port = (space.present.take pciMaxDevices).map space.device := by
  have hscan : pciInit space.port = space.present.foldl
      (fun devices a => Capped.push pciMaxDevices devices (space.device a)) [] := by
    refine Capped.foldl_body _ _ fun t b _ => Capped.foldl_body _ _ fun u d hd => ?_
    exact checkDevice_eq (List.mem_range.mp hd)
  rw [hscan, ← List.foldl_map, List.map_take]
  exact Capped.foldl_push (l := [])

/-- The table has the first 64 functions that are there, with their registers, in the order of their
addresses and each once; and a driver finds the first of them with its device or class. -/
theorem pci_init_finds (space : ConfigSpace) :
    pciInit space.port = (space.present.take pciMaxDevices).map space.device ∧
    space.present.Nodup ∧
    (∀ b d f, (b, d, f) ∈ space.present ↔
      b < pciMaxBus ∧ d < pciMaxDevice ∧ f < pciMaxFunction ∧ space.Present b d f) ∧
    (∀ vendor deviceId, pciFindDevice (pciInit space.port) vendor deviceId =
      ((space.present.take pciMaxDevices).find? fun a =>
        (space.device a).vendorId == vendor && (space.device a).deviceId == deviceId).map
          space.device) ∧
    ∀ classCode subclass, pciFindClass (pciInit space.port) classCode subclass =
      ((space.present.take pciMaxDevices).find? fun a =>
        (space.device a).classCode == classCode && (space.device a).subclass == subclass).map
          space.device := by
  rw [pciInit_eq]
  exact ⟨rfl, present_nodup, fun b d f => mem_present, fun _ _ => List.find?_map, fun _ _ => List.find?_map⟩

/-! Bus mastering. -/

/-- A write of four bytes. Bits of the status register are cleared by writing 1. -/
def ConfigSpace.outl (space : ConfigSpace) (addr val : BitVec 32) : ConfigSpace := fun b d f reg =>
  if addr.getLsbD 31 = true ∧ b = addr.extractLsb' 16 8 ∧ d = addr.extractLsb' 11 5 ∧
      f = addr.extractLsb' 8 3 ∧ reg &&& ~~~3 = addr.extractLsb' 2 6 ++ (0 : BitVec 2) then
    let new := byteOf val (reg &&& 3).toNat
    if reg = 6 ∨ reg = 7 then space b d f reg &&& ~~~new else new
  else space b d f reg

def ConfigSpace.enableBusMaster (space : ConfigSpace) (d : PciDevice) : ConfigSpace :=
  match pciEnableBusMaster space.port d with
  | some (addr, val) => space.outl addr val
  | none => space

theorem busMaster_bytes : pciCmdBusMaster = 0#8 ++ 4#8 := by decide

theorem busMaster_clear {lo hi : BitVec 8} : (hi ++ lo) &&& pciCmdBusMaster = 0 ↔ lo &&& 4 = 0 := by
  rw [busMaster_bytes, BitVec.and_append, BitVec.and_zero]
  exact @BitVec.append_right_inj 8 8 0#8 (lo &&& 4#8) 0#8

theorem busMaster_set {lo hi : BitVec 8} : (hi ++ lo) ||| pciCmdBusMaster = hi ++ (lo ||| 4) := by
  rw [busMaster_bytes, BitVec.or_append, BitVec.or_zero]
  rfl

theorem byteOf_word {lo hi : BitVec 8} :
    byteOf ((hi ++ lo).setWidth 32) 0 = lo ∧ byteOf ((hi ++ lo).setWidth 32) 1 = hi ∧
      byteOf ((hi ++ lo).setWidth 32) 2 = 0 ∧ byteOf ((hi ++ lo).setWidth 32) 3 = 0 := by
  unfold byteOf
  refine ⟨?_, ?_, ?_, ?_⟩
  all_goals
    apply BitVec.eq_of_getLsbD_eq
    intro k hk
    rw [BitVec.getLsbD_extractLsb', BitVec.getLsbD_setWidth, BitVec.getLsbD_append]
    interval_cases k <;> simp

theorem set_bit : ∀ lo : BitVec 8, lo &&& 4 ≠ 0 → lo ||| 4 = lo := by
  decide +kernel

theorem command_bytes : ∀ reg : BitVec 8, reg &&& ~~~3 = pciRegCommand &&& ~~~3 →
    (reg = 4 ∧ (reg &&& 3).toNat = 0) ∨ (reg = 5 ∧ (reg &&& 3).toNat = 1) ∨
      (reg = 6 ∧ (reg &&& 3).toNat = 2) ∨ (reg = 7 ∧ (reg &&& 3).toNat = 3) := by
  decide +kernel

/-- The write sets one bit: the other byte of the command is written back, and the status register
is written with zeros, which clear nothing. -/
theorem bus_master_one_bit (space : ConfigSpace) (b d f : Nat) (hd : d < pciMaxDevice)
    (hf : f < pciMaxFunction) :
    space.enableBusMaster (space.device (b, d, f)) = fun b' d' f' reg =>
      if b' = BitVec.ofNat 8 b ∧ d' = BitVec.ofNat 5 d ∧ f' = BitVec.ofNat 3 f ∧ reg = pciRegCommand
      then space b' d' f' reg ||| 4 else space b' d' f' reg := by
  obtain ⟨hdev, hdev'⟩ := width5 hd
  obtain ⟨hfunc, hfunc'⟩ := width3 hf
  have hcmd : pciRead16 space.port (BitVec.ofNat 8 b) (BitVec.ofNat 8 d) (BitVec.ofNat 8 f)
      pciRegCommand = space (BitVec.ofNat 8 b) (BitVec.ofNat 5 d) (BitVec.ofNat 3 f) 5 ++
        space (BitVec.ofNat 8 b) (BitVec.ofNat 5 d) (BitVec.ofNat 3 f) 4 :=
    read_word hd hf (by decide)
  funext b' d' f' reg
  unfold ConfigSpace.enableBusMaster pciEnableBusMaster ConfigSpace.device
  dsimp only
  rw [hcmd, busMaster_set]
  split
  case isTrue =>
    dsimp only
    unfold ConfigSpace.outl
    rw [pciAddr_bus hdev, pciAddr_dev hfunc, pciAddr_func, pciAddr_reg, hdev', hfunc']
    split
    case isTrue hsel =>
      obtain ⟨-, rfl, rfl, rfl, hreg⟩ := hsel
      obtain ⟨h0, h1, h2, h3⟩ := @byteOf_word
        (space (BitVec.ofNat 8 b) (BitVec.ofNat 5 d) (BitVec.ofNat 3 f) 4 ||| 4)
        (space (BitVec.ofNat 8 b) (BitVec.ofNat 5 d) (BitVec.ofNat 3 f) 5)
      rcases command_bytes reg hreg with ⟨rfl, hj⟩ | ⟨rfl, hj⟩ | ⟨rfl, hj⟩ | ⟨rfl, hj⟩
      · rw [hj, h0]
        exact (if_neg (by decide)).trans (if_pos ⟨rfl, rfl, rfl, rfl⟩).symm
      · rw [hj, h1]
        exact (if_neg (by decide)).trans (if_neg fun h => absurd h.2.2.2 (by decide)).symm
      · rw [hj, h2]
        exact ((if_pos (by decide)).trans BitVec.and_allOnes).trans
          (if_neg fun h => absurd h.2.2.2 (by decide)).symm
      · rw [hj, h3]
        exact ((if_pos (by decide)).trans BitVec.and_allOnes).trans
          (if_neg fun h => absurd h.2.2.2 (by decide)).symm
    case isFalse hsel =>
      refine (if_neg ?_).symm
      rintro ⟨rfl, rfl, rfl, rfl⟩
      exact hsel ⟨pciAddr_enable, rfl, rfl, rfl, rfl⟩
  case isFalse hset =>
    dsimp only
    split
    case isTrue hsel =>
      obtain ⟨rfl, rfl, rfl, rfl⟩ := hsel
      exact (set_bit _ fun hclear => hset (busMaster_clear.mpr hclear)).symm
    case isFalse => rfl

/-- All registers are zero. -/
def zeroSpace : ConfigSpace := fun _ _ _ _ => 0

theorem bus_master_one_bit_zero :
    zeroSpace.enableBusMaster (zeroSpace.device (0, 3, 1)) 0 3 1 pciRegCommand = 4 ∧
      zeroSpace.enableBusMaster (zeroSpace.device (0, 3, 1)) 0 3 0 pciRegCommand = 0 := by
  rw [bus_master_one_bit zeroSpace 0 3 1 (by decide) (by decide)]
  decide

end PinguinOS.Drivers
