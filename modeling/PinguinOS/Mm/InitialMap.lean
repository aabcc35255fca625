import PinguinOS.Mm.PageRights

/-! Where `paging_init` sends each address, against what its comments say. -/
namespace PinguinOS.Mm

/-- Where an address goes that is mapped. -/
def Vm.translate (v : Vm) (a : Nat) : Option Nat :=
  if v.Grants a pdePresent then some (pagingGetPhys v a) else none

/-- The comments of `paging_init`: RAM, framebuffer and MMIO at their own addresses, and the
higher-half mirror of RAM. -/
def documentedMap (a : Nat) : Option Nat :=
  if a < 0x10000000 ∨ 0xE0000000 ≤ a then some a
  else if 0xC0000000 ≤ a ∧ a < 0xD0000000 then some (a - 0xC0000000)
  else none

/-- The addresses of the directory entries 224 to 255, in which the device pages are entered. -/
def InDeviceEntries (a : Nat) : Prop := 0x38000000 ≤ a ∧ a < 0x40000000

instance InDeviceEntries.decidable {a : Nat} : Decidable (InDeviceEntries a) :=
  inferInstanceAs (Decidable (0x38000000 ≤ a ∧ a < 0x40000000))

variable {v : Vm} {a i : Nat} {f : BitVec 32}

theorem translate_huge (hf : f = 0 ∨ f = pdeNocache) (hi : i < 1024) (ha : a < 2 ^ 32)
    (hpd : v.kernelPd (pdIndex a) = hugePde f i) :
    v.translate a = some (i * 0x400000 + a % 0x400000) := by
  have hpresent : v.kernelPd (pdIndex a) &&& pdePresent ≠ 0 := by
    rw [hpd, hugePde_flag hf hi (by decide)]
    rcases hf with rfl | rfl
    · decide
    · decide
  have hhuge : v.kernelPd (pdIndex a) &&& pdeHuge ≠ 0 := by
    rw [hpd, hugePde_flag hf hi (by decide)]
    rcases hf with rfl | rfl
    · decide
    · decide
  have hgrants : v.Grants a pdePresent := ⟨hpresent, Or.inl ⟨hpresent, hhuge⟩⟩
  unfold Vm.translate
  rw [if_pos hgrants, pagingGetPhys_huge hf hi ha hpd]

theorem translate_absent (hpd : v.kernelPd (pdIndex a) = 0) : v.translate a = none := by
  refine if_neg ?_
  rintro ⟨hpresent, -⟩
  rw [hpd] at hpresent
  exact hpresent BitVec.zero_and

/-- The directory that `paging_init` fills. -/
theorem pagingInit_translate (ha : a < 2 ^ 32) : (pagingInit v).translate a =
    if a < 0x10000000 ∨ InDeviceEntries a then some a
    else if 0xC0000000 ≤ a ∧ a < 0xD0000000 then some (a - 0xC0000000)
    else none := by
  have hpd := pagingInit_pd (v := v) (d := pdIndex a)
  have hidx := @pdIndex_eq a
  unfold InDeviceEntries
  by_cases hmirror : 768 ≤ pdIndex a ∧ pdIndex a < 832
  · rw [if_pos hmirror] at hpd
    rw [translate_huge (Or.inl rfl) (by omega) ha hpd, if_neg (by omega), if_pos (by omega)]
    exact congrArg some (by omega)
  rw [if_neg hmirror] at hpd
  by_cases hdevice : 224 ≤ pdIndex a ∧ pdIndex a < 256
  · rw [if_pos hdevice] at hpd
    rw [translate_huge (Or.inr rfl) (by omega) ha hpd, if_pos (by omega)]
    exact congrArg some (by omega)
  rw [if_neg hdevice] at hpd
  by_cases hram : pdIndex a < 64
  · rw [if_pos hram] at hpd
    rw [translate_huge (Or.inl rfl) (by omega) ha hpd, if_pos (by omega)]
    exact congrArg some (by omega)
  · rw [if_neg hram] at hpd
    rw [translate_absent hpd, if_neg (by omega), if_neg (by omega)]

/-- An address goes where the comments say exactly if it is neither one of the framebuffer and
MMIO, which are not mapped, nor one of the 128 MB that are mapped in their place. -/
theorem documentedMap_iff (ha : a < 2 ^ 32) : (pagingInit v).translate a = documentedMap a ↔
    a < 0xE0000000 ∧ ¬ InDeviceEntries a := by
  rw [pagingInit_translate ha]
  unfold documentedMap InDeviceEntries
  by_cases hhigh : 0xE0000000 ≤ a
  · rw [if_neg (by omega), if_neg (by omega), if_pos (Or.inr hhigh)]
    exact iff_of_false (fun heq => nomatch heq) (by omega)
  by_cases hdevice : 0x38000000 ≤ a ∧ a < 0x40000000
  · rw [if_pos (Or.inr hdevice), if_neg (by omega), if_neg (by omega)]
    exact iff_of_false (fun heq => nomatch heq) fun hboth => hboth.2 hdevice
  · refine iff_of_true ?_ ⟨by omega, hdevice⟩
    refine if_congr ?_ rfl rfl
    omega

theorem documentedMap_mirror :
    (pagingInit ⟨⟨fun _ => 0, 0, 0, 0⟩, fun _ => 0, fun _ => false⟩).translate 0xC0001234 =
      documentedMap 0xC0001234 ↔
    0xC0001234 < 0xE0000000 ∧ ¬ InDeviceEntries 0xC0001234 :=
  documentedMap_iff (by decide)

/-- The framebuffer is not mapped. -/
theorem not_forall_documentedMap : ¬ ∀ (v : Vm) (a : Nat), a < 2 ^ 32 →
    (pagingInit v).translate a = documentedMap a := by
  intro hall
  have hframebuffer := hall ⟨⟨fun _ => 0, 0, 0, 0⟩, fun _ => 0, fun _ => false⟩ 0xE0000000
    (by decide)
  rw [pagingInit_translate (by decide)] at hframebuffer
  exact absurd hframebuffer (by decide)

end PinguinOS.Mm
