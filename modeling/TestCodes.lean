import TestCodes.AuthProvider.SendQueue
import TestCodes.AuthProvider.PacketBounds
import TestCodes.AuthProvider.LoginSessions
import TestCodes.AuthProvider.ConnectionState
import TestCodes.TestUnitsNew.BLOBEvolution
import TestCodes.TestUnitsNew.BLOBAccesses
import TestCodes.SvrMaster.PlayerIndex
import TestCodes.SvrMaster.SessionExpiry
import TestCodes.SvrMaster.Tickets
import TestCodes.SvrMaster.LogoutNotices
import TestCodes.SvrMaster.Reregistration
import TestCodes.SvrGame.TypeIndexes
import TestCodes.SvrGame.HostablePool
import TestCodes.SvrGame.ClientKeys
import TestCodes.SvrGame.HostingQueue
import TestCodes.AuthProvider.NetComManager
import TestCodes.SvrMaster.LowUserServer
import TestCodes.SvrMaster.WaitList
import TestCodes.SvrMaster.KickedLogin
import TestCodes.SvrGame.HostRelease
import TestCodes.TestUnitsNew.VectorPqueuePerformance
import TestCodes.ZoneMsg.DispatcherCopies
import TestCodes.TestUnitsNew.BitBuff
import TestCodes.Gagebu.LedgerFile
import TestCodes.TestUnitsNew.EvtOrder
import TestCodes.TestUnitsNew.BitBuffText
import TestCodes.TestUnitsNew.HostProcessPool
import TestCodes.TestUnitsNew.DebugAssignText
import TestCodes.Gagebu.LedgerTotal
import TestCodes.TreeSize.Program
import TestCodes.AuthProvider.QueueRepresentation
import TestCodes.TestUnitsNew.QueueSpinLocked
import TestCodes.SvrMaster.ConcurrentKeys
import TestCodes.TestUnits.ReaderWriterLockFair
import TestCodes.TestUnits.ReaderWriterLockWP
import TestCodes.TestUnits.ChatFraming
import TestCodes.TestUnits.RefCount
import TestCodes.TestUnits.TrackedRefCount
import TestCodes.TestUnits.LockingRefCount
import TestCodes.TestUnits.Singleton
import TestCodes.TestUnitsNew.Utf8Unchecked
