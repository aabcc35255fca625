import PinguinOS.Mm.Types

/-! Processes and their virtual memory areas. -/
namespace PinguinOS.Mm

def vmaRead : BitVec 32 := 1
def vmaWrite : BitVec 32 := 2

structure Vma where
  start : Nat
  end_ : Nat
  flags : BitVec 32
  fileOffset : Nat

/-- What `process.c` and `page_fault_handler` read of a `process_t`. -/
structure Process where
  cr3 : Nat
  /-- The list from `vma_list` on. -/
  vmaList : List Vma

def Vma.Contains (vma : Vma) (addr : Nat) : Prop := vma.start ≤ addr ∧ addr < vma.end_

instance {vma : Vma} {addr : Nat} : Decidable (vma.Contains addr) :=
  inferInstanceAs (Decidable (vma.start ≤ addr ∧ addr < vma.end_))

def vmaFind (proc : Process) (addr : Nat) : Option Vma :=
  proc.vmaList.find? fun v => v.Contains addr

end PinguinOS.Mm
