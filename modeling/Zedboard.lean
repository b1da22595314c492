import Zedboard.Aes.Carry
import Zedboard.Aes.Reverse
import Zedboard.Aes.CtrRun
import Zedboard.Zcu102ProgramBbram
import Zedboard.WriteFileToMemory
import Zedboard.IcapProgram
import Zedboard.Aes.Tally
import Zedboard.Aes.Stale
import Zedboard.Memmgr.Exact
import Zedboard.Memmgr.Fresh
import Zedboard.Memmgr.Locks
import Zedboard.Memmgr.Stamps
import Zedboard.Memmgr.Laps
import Zedboard.Memmgr.Assert
import Zedboard.Memmgr.Views
import Zedboard.Memmgr.Sessions
import Zedboard.Mapping.Accessors
import Zedboard.Mapping.Window
import Zedboard.Memmgr.Drain
import Zedboard.Aes.Cbc
import Zedboard.Aes.Memcpy
import Zedboard.Aes.Device
import Zedboard.Aes.Dma
import Zedboard.Aes.Creep
import Zedboard.Aes.Prefixed
import Zedboard.Aes.Stream
import Zedboard.Aes.Calls
import Zedboard.Aes.Steps
import Zedboard.Memmgr.Shape
import Zedboard.Memmgr.Scratch
import Zedboard.Aes.Core
import Zedboard.Aes.Bus
import Zedboard.Lib.CounterMode
import Zedboard.Memmgr.Runs
import Zedboard.Memmgr.Header
import Zedboard.Memmgr.Layout
import Zedboard.Ed25519.Sha512Stream
import Zedboard.Ed25519.Canonical
import Zedboard.Ed25519.Prime
import Zedboard.Ed25519.Scalar
import Zedboard.Ed25519.Sign
import Zedboard.Ed25519.Unpack
