import MlirAie.Target.Model
import MlirAie.Lib.While
import MlirAie.Lib.Walk
import MlirAie.Txn.Robust
import MlirAie.Txn.RoundTrip
import MlirAie.CtrlPkt.Registers
import MlirAie.CtrlPkt.Layout
import MlirAie.Bd.HostBuffer
import MlirAie.Bd.Stride
import MlirAie.Dma.TaskStream
import MlirAie.Dma.Memcpy
import MlirAie.Dma.SlicesOrder
import MlirAie.Queue.Sound
import MlirAie.Queue.Ends
import MlirAie.BdIds.Safe
import MlirAie.Route.TileSound
import MlirAie.Route.ArbiterComplete
import MlirAie.Route.OrderedOptimal
import MlirAie.Route.PartsSound
import MlirAie.Flows.Lifted
import MlirAie.Flows.Sections
import MlirAie.Cert.Merge
import MlirAie.Cert.PagesSound
import MlirAie.Cert.PagesFit
import MlirAie.Overlay.Reload
import MlirAie.CtrlOverlay.Standalone
import MlirAie.Checkpoint.RoundTrip
import MlirAie.Buffers.Complete
import MlirAie.Engine.Runs
import MlirAie.Placer.Legal
import MlirAie.Fold.Chain
import MlirAie.Pdi.Alternate
import MlirAie.Fifo.Bounded
import MlirAie.Fifo.Cores
import MlirAie.Fifo.OverRelease
import MlirAie.Stream.CapacityExact
import MlirAie.Route.CutOverflow
import MlirAie.Route.RulesExact
import MlirAie.Stack.Edges
import MlirAie.Stack.Exact
import MlirAie.StaticBd.Complete
import MlirAie.Dma.Lowerable
import MlirAie.Bd.Words
import MlirAie.Ranked.Memo
import MlirAie.Fifo.Reacquire
import MlirAie.Bd.Locks
import MlirAie.Bd.ViewTrace
import MlirAie.Tap.Index
import MlirAie.Tap.Reshape
import MlirAie.Tap.Inverse
import MlirAie.Bd.DriverExact
import MlirAie.Fifo.LivenessOrder
import MlirAie.Route.ViasExact
import MlirAie.Image.CheckExact
import MlirAie.Trace.Segments
import MlirAie.Trace.Repeats
import MlirAie.Runtime.Borrow
import MlirAie.Iron.Pipeline
import MlirAie.Ranked.Fragmenting
import MlirAie.Txn.Instructions
import MlirAie.Trace.Packets
import MlirAie.Bfp.Shuffle
import MlirAie.Bfp.Encode
import MlirAie.Hsaco.Section
import MlirAie.Pointer.Preserve
