import NcclCore.Rings
import NcclCore.ReciprocalDivision
import NcclCore.DoubleTree
import NcclCore.PatAllGather
import NcclCore.P2pScheduleProofs
import NcclCore.CollCapProofs
import NcclCore.SymmetricTasksProofs
import NcclCore.SymmetricSharingProofs
import NcclCore.WorkBatchProofs
import NcclCore.WorkFifoWaitProofs
import NcclCore.P2pExecProofs
import NcclCore.RingAllReduceProofs
import NcclCore.RingProxyProofs
import NcclCore.ProxyPostProofs
import NcclCore.NvlsUbProofs
import NcclCore.CeCollProofs
import NcclCore.CeSyncProofs
import NcclCore.RmaWaitProofs
import NcclCore.HierChunks
import NcclCore.IbSendProofs
import NcclCore.GinProxyProofs
import NcclCore.DevrWindowsProofs
import NcclCore.DevrResourcesProofs
import NcclCore.BootstrapInitProofs
import NcclCore.BootstrapRanksProofs
import NcclCore.RasLegs
import NcclCore.MemoryStack
