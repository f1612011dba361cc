import LGears.Syntax
import LGears.GenName
import LGears.PrimitivesInfo
import LGears.Cps
import LGears.CpsFacts
import LGears.CpsNames
import LGears.CoreProgram
import LGears.Library.Machine
import LGears.Library.Returns
import LGears.Library.Leads
import LGears.Values
import LGears.Renaming
import LGears.Direct
import LGears.CpsMachine
import LGears.CpsInvariant
import LGears.CpsCorrect
import LGears.CpsConversion
import LGears.Opcode
import LGears.Compiler
import LGears.CompilerScope
import LGears.CpsSplice
import LGears.CpsAccepted
import LGears.Library.Bytes
import LGears.Tagged
import LGears.Fasl
import LGears.ModuleFile
import LGears.ConstWindow
import LGears.Gc
import LGears.GcKeeps
import LGears.GcLayout
import LGears.GcVisit
import LGears.Library.Rooted
import LGears.GcGraph
import LGears.GcRuns
import LGears.GcPromotion
import LGears.GcTrace
import LGears.GcScan
import LGears.GcMinor
import LGears.GcCompact
import LGears.CodeFlow
import LGears.Arithmetic
import LGears.CoreArithmetic
import LGears.EvalThread
import LGears.FixnumCode
import LGears.Strings
import LGears.StringShape
import LGears.Spaces
import LGears.SymbolNames
import LGears.IndexChecks
import LGears.ErrorHandlers
import LGears.HandlerExtent
import LGears.Reader
import LGears.PutDatum
import LGears.ReadBack
import LGears.ReaderStops
import LGears.ReaderLayout
import LGears.Vm
import LGears.VmFrames
import LGears.StackBound
import LGears.LibraryManager
import LGears.OldSpace
import LGears.Hash
import LGears.LibraryFiles
import LGears.LibraryCode
import LGears.LibraryLoads
import LGears.Apply
import LGears.ListBits
import LGears.StringTexts
import LGears.CoreStrings
import LGears.StringSplit
import LGears.StringEquality
import LGears.Ports
import LGears.SyntaxCore
import LGears.SyntaxPattern
import LGears.SyntaxBind
import LGears.Expand
import LGears.ExpandBody
import LGears.GcMarks
import LGears.GenNames
import LGears.EnvTables
import LGears.OptimizerCorrect
import LGears.CodeShape
import LGears.VmCode
import LGears.VmValues
import LGears.VmHeap
import LGears.VmTests
import LGears.VmObjects
import LGears.VmMoves
import LGears.VmEval
import LGears.VmBinding
import LGears.VmEntry
import LGears.VmCalls
import LGears.VmForms
import LGears.VmRuns
import LGears.VmProgram
