import Wine.Lib.Memory
import Wine.Lib.SlotMap
import Wine.Lib.Mask
import Wine.Lib.GrantDeny
import Wine.Lib.BinarySearch
import Wine.Lib.Digits
import Wine.Lib.SortedArray
import Wine.Lib.DoubleWord
import Wine.Lib.FreeList
import Wine.Lib.RangeSort
import Wine.Lib.Lanes
import Wine.Lib.IntervalList
import Wine.Lib.BigEndian
import Wine.Lib.DList
import Wine.Lib.RefTable
import Wine.Lib.Buckets
import Wine.Lib.Ring
import Wine.Lib.Limbs
import Wine.Lib.BinTree
import Wine.Lib.TreeZipper
import Wine.Lib.RedBlack
import Wine.Lib.RedBlackErase
import Wine.Lib.SplitWord
import Wine.Status
import Wine.Ntdll.Lznt1
import Wine.Ntdll.Idn
import Wine.Ntdll.Utf8
import Wine.Ntdll.FormatMessage
import Wine.Ntdll.Path
import Wine.Ntdll.Virtual
import Wine.Ntdll.VprotRange
import Wine.Ntdll.ReservedAreas
import Wine.Ntdll.Bitmap
import Wine.Ntdll.Time
import Wine.Ntdll.TimeRoundTrip
import Wine.Ntdll.LargeInt
import Wine.Ntdll.RtlHandle
import Wine.Ntdll.HeapFreeList
import Wine.Server.Handle
import Wine.Server.HandleTable
import Wine.Server.HandleMap
import Wine.Server.HandleRuns
import Wine.Server.Token
import Wine.Server.AccessCheck
import Wine.Server.Security
import Wine.Msvcrt.Aligned
import Wine.Msvcrt.Scanf
import Wine.Msvcrt.SplitPath
import Wine.Msvcrt.Qsort
import Wine.Msvcrt.QsortLoop
import Wine.Msvcrt.Bnum
import Wine.Ntdll.BitmapRuns
import Wine.Server.Mapping
import Wine.Server.Committed
import Wine.Server.Unicode
import Wine.Server.Atom
import Wine.Server.Region
import Wine.Server.Registry
import Wine.Server.RegistryInv
import Wine.Server.RegistryText
import Wine.Kernelbase.Utf7
import Wine.Include.RbTree
import Wine.Include.RbTreeUpdate
import Wine.Include.RbTreeRemove
import Wine.Server.SharedTime
import Wine.Include.RbTreeStore
