import Rdpgen.Layout
import Rdpgen.Grammar
import Rdpgen.InsertPoints
import Rdpgen.Pipeline
import Rdpgen.HashCounters
import Rdpgen.HashDict
import Rdpgen.HashDestroy
import Rdpgen.StrRuns
import Rdpgen.StrStrip
import Rdpgen.ParseEnds
import Rdpgen.Traversal
import Rdpgen.TypedLists
import Rdpgen.EofGuard
import Rdpgen.Positions
import Rdpgen.TokenPlaces
import Rdpgen.EmitAst
import Rdpgen.EmitParser
import Rdpgen.ParseAgree
import Rdpgen.GrammarText
import Rdpgen.MainOutput
import Rdpgen.EmitFiles
import Rdpgen.Relaid
import Rdpgen.ParseTotal
import Rdpgen.HashBag
import Rdpgen.HashDump
import Rdpgen.ListDestroy
import Rdpgen.Expected
import Rdpgen.FirstError
import Rdpgen.Refinement
import Rdpgen.Structs
import Rdpgen.OnHeap
import Rdpgen.ListNodes
import Rdpgen.HeapShape
import Rdpgen.HeapSteps
import Rdpgen.HeapWalk
import Rdpgen.HeapParse
import Rdpgen.HeapDump
import Rdpgen.HeapPreproc
import Rdpgen.HeapMain
import Rdpgen.StrLife
