import PostfixCompiler.Main
import PostfixCompiler.Proofs.Syntax.Valid
import PostfixCompiler.Syntax.Builder
import PostfixCompiler.Flow.Track
import PostfixCompiler.Proofs.Ty.Fits
import PostfixCompiler.Proofs.Symbol.View
import PostfixCompiler.Proofs.Ty.Stable
import PostfixCompiler.Proofs.Typing.Typed
import PostfixCompiler.Proofs.Typing.Ends
import PostfixCompiler.Proofs.Typing.Check
import PostfixCompiler.Proofs.Typing.CheckDeclaration
import PostfixCompiler.Proofs.Typing.CheckStatement
import PostfixCompiler.Proofs.Typing.CheckUnit
import PostfixCompiler.Proofs.Typing.Steps
import PostfixCompiler.Proofs.Emission.ExprOutline
import PostfixCompiler.Proofs.Emission.Supplies
import PostfixCompiler.Proofs.Emission.Puts
import PostfixCompiler.Proofs.Emission.ExprCode
import PostfixCompiler.Proofs.Emission.StmtOutline
import PostfixCompiler.Proofs.Emission.Sorted
import PostfixCompiler.Proofs.Emission.LocalCode
import PostfixCompiler.Proofs.Emission.StmtCode
import PostfixCompiler.Proofs.Emission.StaticCode
import PostfixCompiler.Proofs.Emission.FunctionCode
import PostfixCompiler.Proofs.Emission.UnitCode
import PostfixCompiler.Proofs.Machine.Labels
import PostfixCompiler.Proofs.Machine.UnitLabels
import PostfixCompiler.Proofs.Machine.Height
import PostfixCompiler.Proofs.Machine.ExprHeight
import PostfixCompiler.Proofs.Emission.Standing
import PostfixCompiler.Proofs.Machine.StmtHeight
import PostfixCompiler.Proofs.Machine.UnitHeight
import PostfixCompiler.Proofs.Control.Course
import PostfixCompiler.Proofs.Control.Leaves
import PostfixCompiler.Proofs.Control.Follow
import PostfixCompiler.Proofs.Control.Agree
import PostfixCompiler.Proofs.Typing.Returns
import PostfixCompiler.Proofs.Frame.Area
import PostfixCompiler.Proofs.Frame.Room
import PostfixCompiler.Proofs.Frame.Access
import PostfixCompiler.Proofs.Machine.Transfer
import PostfixCompiler.Proofs.Machine.Delivers
import PostfixCompiler.Proofs.Machine.ExprRun
import PostfixCompiler.Proofs.Machine.TupleRun
import PostfixCompiler.Proofs.Emission.Texts
import PostfixCompiler.Proofs.Machine.Standard
import PostfixCompiler.Proofs.Machine.UnitRun
import PostfixCompiler.Proofs.Typing.Finished
import PostfixCompiler.Proofs.Scope.Moment
import PostfixCompiler.Proofs.Scope.Checked
import PostfixCompiler.Proofs.Scope.CheckedUnit
import PostfixCompiler.Proofs.Scope.Coded
import PostfixCompiler.Proofs.Scope.Resolve
import PostfixCompiler.Proofs.Frame.Address
import PostfixCompiler.Proofs.Frame.Whole
import PostfixCompiler.Proofs.Frame.Conversion
import PostfixCompiler.Proofs.Linkage.Registered
import PostfixCompiler.Proofs.Emission.Inert
import PostfixCompiler.Proofs.Linkage.References
import PostfixCompiler.Proofs.Linkage.Unit
import PostfixCompiler.Proofs.Linkage.Labels
import PostfixCompiler.Proofs.Frame.Loan
import PostfixCompiler.Proofs.Frame.Lending
import PostfixCompiler.Proofs.Syntax.Below
import PostfixCompiler.Proofs.Emission.Locality
import PostfixCompiler.Proofs.Linkage.Extension
import PostfixCompiler.Proofs.Control.Completes
import PostfixCompiler.Proofs.Typing.Globals
import PostfixCompiler.Proofs.Syntax.Inspect
import PostfixCompiler.Proofs.Syntax.WellFormed
import PostfixCompiler.Proofs.Json.Words
import PostfixCompiler.Proofs.Json.Scanned
import PostfixCompiler.Proofs.Json.ReadBack
import PostfixCompiler.Proofs.Json.Nesting
import PostfixCompiler.Proofs.Syntax.Omitted
import PostfixCompiler.Proofs.Ty.Flatten
import PostfixCompiler.Proofs.Ty.Options
import PostfixCompiler.Proofs.Machine.Storing
import PostfixCompiler.Proofs.Ty.Targets
import PostfixCompiler.Proofs.Scope.Introduced
import PostfixCompiler.Proofs.Scope.Owned
import PostfixCompiler.Proofs.Symbol.Session
import PostfixCompiler.Proofs.Symbol.Arena
import PostfixCompiler.Proofs.Emission.Image
import PostfixCompiler.Proofs.Frame.Statements
import PostfixCompiler.Proofs.Machine.Calls
import PostfixCompiler.Proofs.Machine.Prints
import PostfixCompiler.Proofs.Machine.Perform
import PostfixCompiler.Proofs.Machine.Effects
import PostfixCompiler.Proofs.Machine.EffectRun
import PostfixCompiler.Proofs.Machine.CallRun
import PostfixCompiler.Proofs.Machine.Orderly
import PostfixCompiler.Proofs.Machine.PrintRun
import PostfixCompiler.Proofs.Machine.UnitPrints
import PostfixCompiler.Proofs.Ty.Offsets
import PostfixCompiler.Proofs.Machine.Copying
import PostfixCompiler.Proofs.Linkage.Headings
import PostfixCompiler.Proofs.Double.Interval
import PostfixCompiler.Proofs.Double.Nearest
import PostfixCompiler.Proofs.Double.Reading
import PostfixCompiler.Proofs.Text.Quoted
import PostfixCompiler.Proofs.Postfix.Listing
