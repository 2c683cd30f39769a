import Mathlib.Algebra.Group.Nat.Defs

/-! The physical address map of `include/smp_layout.h`. On aarch64 all ranges are offsets from a RAM
base chosen at build time. -/

namespace Coreinit.Memory.Layout

abbrev Word := BitVec 64

/-- `AARCH64_RAM_BASE`, with room above it for the whole map. -/
structure RamBase where
  addr : Word
  fits : addr.toNat + 0x18000000 < 2 ^ 64

inductive Arch where
  | x86_64
  | aarch64 (ram : RamBase)

def coreMailboxOffset : Word := 0x380000
def coreMailboxSize : Word := 0x080000

def coreRegionBase : Arch → Word
  | .x86_64 => 0x4000000
  | .aarch64 ram => ram.addr + 0x02000000

def bspMailboxRegionBase : Arch → Word
  | .x86_64 => 0x1200000 - coreMailboxOffset
  | .aarch64 ram => ram.addr + 0x01800000 - coreMailboxOffset

def kernelLoadBase : Arch → Word
  | .x86_64 => 0x1000000
  | .aarch64 ram => ram.addr + 0x01000000

def bspInitLoadBase : Arch → Word
  | .x86_64 => 0x1800000
  | .aarch64 ram => ram.addr + 0x00200000

def allocMin : Arch → Word
  | .x86_64 => 0x1C00000
  | .aarch64 ram => ram.addr + 0x14000000

def allocMax : Arch → Word
  | .x86_64 => coreRegionBase .x86_64
  | .aarch64 ram => ram.addr + 0x18000000

end Coreinit.Memory.Layout
