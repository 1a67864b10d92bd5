import Makar.PmmRefs
import Makar.HeapWindow
import Makar.HeapBytes
import Makar.ShadowUpdate
import Makar.ProcSched
import Makar.Zombies
import Makar.Handlers
import Makar.Messages
import Makar.Exhaustion
import Makar.Fat32Format
import Makar.Isolation
import Makar.Surfaces
import Makar.ReadOnly
import Makar.Window
import Makar.PageCache
import Makar.Tmpfs
import Makar.LogRing
import Makar.Sigframe
import Makar.FdPipes
import Makar.InflateStream
import Makar.UnzipReads
import Makar.ElfLoad
import Makar.ElfStack
import Makar.FdPaths
import Makar.Locks
import Makar.Vt
import Makar.MallocSafe
import Makar.PartitionRoundTrip
import Makar.KeyboardModes
import Makar.KeyboardKeys
import Makar.Ksock
import Makar.IdeLock
import Makar.Glob
import Makar.Installer
import Makar.WindowServer
