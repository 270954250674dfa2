import Equirec.Json.Encode
import Equirec.Main
import Equirec.Proofs.Ty.Alpha
import Equirec.Proofs.Ty.Closed
import Equirec.Proofs.Ty.Distinct
import Equirec.Proofs.Ty.Head
import Equirec.Proofs.Ty.Inst
import Equirec.Proofs.Ty.Regular
import Equirec.Proofs.Comparison.Step
import Equirec.Proofs.Tree
import Equirec.Proofs.Comparison.Meaning
import Equirec.Proofs.Comparison.Answer
import Equirec.Proofs.Comparison.Budget
import Equirec.Proofs.Comparison.Decision
import Equirec.Proofs.Comparison.Accepted
import Equirec.Proofs.Term.Rules
import Equirec.Proofs.Term.Check
import Equirec.Proofs.Ty.Caught
import Equirec.Proofs.Comparison.Reserve
import Equirec.Proofs.Term.Lasting
import Equirec.Proofs.Term.Open
import Equirec.Proofs.Comparison.Order
import Equirec.Proofs.Term.Alike
import Equirec.Proofs.Term.Same
import Equirec.Proofs.Term.Scope
import Equirec.Proofs.Comparison.Symmetry
import Equirec.Proofs.Json.Rendering
import Equirec.Proofs.Term.Distinct
import Equirec.Proofs.Json.Fields
import Equirec.Proofs.Json.Decoding
import Equirec.Proofs.Term.NonRecursive
import Equirec.Proofs.Ty.Nameless
import Equirec.Proofs.Ty.Turns
import Equirec.Proofs.Cli.Arguments
import Equirec.Proofs.Cli.Session
import Equirec.Proofs.Term.Inlining
import Equirec.Proofs.Term.Visible
import Equirec.Proofs.Ty.Occurrences
import Equirec.Proofs.Ty.Anonymous
import Equirec.Proofs.Comparison.Anonymous
import Equirec.Proofs.Term.Anonymous
import Equirec.Proofs.Term.Declared
import Equirec.Proofs.Ty.Display
import Equirec.Proofs.Comparison.Assumed
import Equirec.Proofs.Ty.Renaming
import Equirec.Proofs.Ty.Reachable
