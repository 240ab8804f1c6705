import Iommu.PageTables.Linear
import Iommu.PageTables.Leaves
import Iommu.PageTables.Builders
import Iommu.PageTables.Sizes
import Iommu.PageTables.Indices
import Iommu.PageTables.Live
import Iommu.PageTables.Resize
import Iommu.PageTables.Version1
import Iommu.Amd.CmdPayloads
import Iommu.Amd.Ppr
import Iommu.Amd.Events
import Iommu.Amd.DteDomain
import Iommu.Amd.DteGuest
import Iommu.Amd.Irte
import Iommu.Amd.IvrsEntries
import Iommu.Amd.IvrsData
import Iommu.Amd.Regs
import Iommu.Amd.Control
import Iommu.Intel.Requests
import Iommu.Intel.DmarFields
import Iommu.Intel.DmarData
import Iommu.Intel.PasidBits
import Iommu.Intel.IrteFields
import Iommu.Intel.FaultFields
import Iommu.Intel.Capabilities
import Iommu.Logs
import Iommu.Queues
import Iommu.Interrupts
import Iommu.Pasids
import Iommu.Overrun
import Iommu.Integrity
