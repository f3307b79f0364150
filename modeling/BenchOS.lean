import BenchOS.BinPack
import BenchOS.FormatBounds
import BenchOS.HexOrder
import BenchOS.Indeterminate
import BenchOS.KeyTable
import BenchOS.MemoryLaws
import BenchOS.Safety
import BenchOS.Shown
import BenchOS.Utf8
