import Kint.CallGraph.Search
import Kint.Taint.Termination
import Kint.Range.Widening
import Kint.Range.Writeback
import Kint.Range.Readback
import Kint.Range.Width
import Kint.Range.Order
import Kint.Range.Annotated
import Kint.Range.Assertion
import Kint.Range.Refine
import Kint.Range.Initial
import Kint.Range.Layout
import Kint.PathGen.Recursion
import Kint.PathGen.Counted
import Kint.PathGen.TermGuard
import Kint.CmpSat
import Kint.LoadRewrite.Preservation
import Kint.Overflow.Correct
import Kint.Overflow.Idiom
import Kint.Overflow.Product
import Kint.Identity
import Kint.Metadata
import Kint.Sink
import Kint.CmpOverflow.CallOrder
import Kint.IntRewrite.ArrayCheck
import Kint.IntRewrite.Defer
import Kint.IntRewrite.Report
import Kint.IntRewrite.Libcalls
import Kint.SMT.Constant
import Kint.SMT.Session
import Kint.IntSat.Module
import Kint.CmpSat.Language
