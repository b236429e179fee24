import Rv32emu.Chain
import Rv32emu.ConstoptRewrite
import Rv32emu.FusionTrap
import Rv32emu.SignalLink
import Rv32emu.ZeroReg
import Rv32emu.RvcSound
import Rv32emu.FenceI
import Rv32emu.StaleNode
import Rv32emu.TrapLoop
import Rv32emu.T2cFused
import Rv32emu.MapRun
import Rv32emu.Sv32
import Rv32emu.TrapReturn
import Rv32emu.BlockLookup
import Rv32emu.CacheInv
import Rv32emu.Tlb
import Rv32emu.AddressSpace
import Rv32emu.DecodeLegal
import Rv32emu.Plic
import Rv32emu.VirtioRing
import Rv32emu.Misalign
import Rv32emu.JitTables
import Rv32emu.JitRestart
import Rv32emu.JitLinks
import Rv32emu.CsrAccess
import Rv32emu.Sv32Walk
import Rv32emu.TlbDirty
import Rv32emu.TlbFlush
import Rv32emu.CachePolicy
import Rv32emu.StepBudget
import Rv32emu.BlockPages
import Rv32emu.PageIndex
import Rv32emu.PageInvalidate
import Rv32emu.RegFrame
import Rv32emu.LazyMask
import Rv32emu.LazyStable
import Rv32emu.CodeLookup
import Rv32emu.Rtc
import Rv32emu.MmioMap
import Rv32emu.VirtioGuards
import Rv32emu.VirtioConfig
import Rv32emu.CacheAtomic
import Rv32emu.MapIter
import Rv32emu.LexPath
import Rv32emu.SanitizePath
import Rv32emu.Overlay
import Rv32emu.ElfLoad
import Rv32emu.Carryless
import Rv32emu.Clmul
import Rv32emu.Lane
import Rv32emu.MoveWide
import Rv32emu.KeySet
import Rv32emu.FdTable
import Rv32emu.ByteWord
import Rv32emu.Mpool
import Rv32emu.ListHeap
import Rv32emu.IrList
import Rv32emu.FuseList
import Rv32emu.SyscallRead
import Rv32emu.ByteBitmap
import Rv32emu.DemandPaging
import Rv32emu.ArgVector
import Rv32emu.MapPath
import Rv32emu.JitSound
import Rv32emu.T2cThreadSound
import Rv32emu.T2cTraceSound
