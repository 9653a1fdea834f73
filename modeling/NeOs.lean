import NeOs.Buffer.Calls
import NeOs.Buffer.Model
import NeOs.Buffer.Output
import NeOs.CString
import NeOs.Cat
import NeOs.Dynamic.Append
import NeOs.Dynamic.Calls
import NeOs.Dynamic.Cost
import NeOs.Dynamic.Mixed
import NeOs.Dynamic.Model
import NeOs.Dynamic.Sizes
import NeOs.Dynamic.Slots
import NeOs.Init
import NeOs.Libc.Heapsort
import NeOs.Libc.InBytes.Heapsort
import NeOs.Libc.InBytes.Indirect
import NeOs.Libc.InBytes.Msort
import NeOs.Libc.InBytes.Qsort
import NeOs.Libc.InBytes.Swap
import NeOs.Libc.Indirect
import NeOs.Libc.Msort
import NeOs.Libc.Qsort
import NeOs.Libc.Readdir
import NeOs.Library.Blocks
import NeOs.Library.Bytes
import NeOs.Library.Causes
import NeOs.Library.Cells
import NeOs.Library.Comparator
import NeOs.Library.Components
import NeOs.Library.Doubling
import NeOs.Library.Folds
import NeOs.Library.Grid
import NeOs.Library.Heap
import NeOs.Library.Layout
import NeOs.Library.MergeSort
import NeOs.Library.Run
import NeOs.Library.Stateful
import NeOs.Library.Traced
import NeOs.Library.Window
import NeOs.Ls.Coverage
import NeOs.Ls.Headings
import NeOs.Ls.Layout
import NeOs.Ls.Leaks
import NeOs.Ls.Listing
import NeOs.Ls.Memory
import NeOs.Ls.Model
import NeOs.Ls.Options
import NeOs.Ls.Output
import NeOs.Ls.Qsort
import NeOs.Ls.Reach
import NeOs.Ls.Reading
import NeOs.Ls.References
import NeOs.Ls.Sorting
import NeOs.Ls.Stream
import NeOs.Ls.Trace
import NeOs.Ls.Traversal
import NeOs.Ls.Tree
import NeOs.Mount
import NeOs.Utils.ConcatPath
