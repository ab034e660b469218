import BooledASS.Sat.Replay
import BooledASS.Sat.Inprocess.Scc
import BooledASS.Sat.ConflictSound
import BooledASS.Sat.Drat.Drup
import BooledASS.Parallel.StrongerCore
import BooledASS.Parallel.Verdicts
import BooledASS.Parallel.Lost
import BooledASS.Rewriter.Pb2bvSound
import BooledASS.Rewriter.BvBoundsRun
import BooledASS.Tactic.CtxSimplifyRun
import BooledASS.Sat.Tile.Decode
import BooledASS.Sat.Gpu.Throttle
import BooledASS.Sat.Gpu.Tables
import BooledASS.Rewriter.BitBlaster.Compare
import BooledASS.Rewriter.BitBlaster.Overflow
import BooledASS.Rewriter.BitBlaster.Rotate
import BooledASS.Sat.Gpu.Blame
import BooledASS.Sat.Gpu.Stale
import BooledASS.Util.Gcd
import BooledASS.Util.Rlimit
import BooledASS.Util.Tbv
import BooledASS.Parallel.CallerCancel
import BooledASS.Sat.Inprocess.FlushGmc
import BooledASS.Sat.Dimacs.Returns
import BooledASS.Util.SortingNetwork.Cardinality
import BooledASS.Parallel.CoreMinimizer
import BooledASS.Parallel.AssumptionCore
import BooledASS.Dd.Bddv
import BooledASS.Dd.OpCache
import BooledASS.Util.MpzDisplay
import BooledASS.Util.CheckedInt64
