import ViewScript.Main
import ViewScript.Parser.Pattern
import ViewScript.Proofs.Compile.Comments
import ViewScript.Proofs.Compile.HostCode
import ViewScript.Proofs.Compile.Modularity
import ViewScript.Proofs.Compile.Renaming
import ViewScript.Proofs.Compile.Slices
import ViewScript.Proofs.Grammar.Printing
import ViewScript.Proofs.Grammar.Termination
import ViewScript.Proofs.Project.Interleaving
import ViewScript.Proofs.Scanner.Agreement
import ViewScript.Proofs.Scanner.Failures
import ViewScript.Text.Utf8.RoundTrip
import ViewScript.Proofs.Command.Agreement
import ViewScript.Proofs.Disk.Growth
import ViewScript.Proofs.Disk.Making
import ViewScript.Proofs.Project.Replacing
import ViewScript.Proofs.Project.Effects
import ViewScript.Proofs.Project.Targets
import ViewScript.Proofs.Project.Overwriting
import ViewScript.Proofs.Project.Placement
import ViewScript.Proofs.Project.Collisions
import ViewScript.Proofs.Project.Repetition
import ViewScript.Proofs.Code.Separation
import ViewScript.Proofs.Code.Merging
import ViewScript.Proofs.Command.OutputMode
import ViewScript.Proofs.Disk.Ways
import ViewScript.Proofs.Project.Commuting
import ViewScript.Proofs.Project.Spread
import ViewScript.Proofs.Command.Building
import ViewScript.Proofs.Code.Literals
import ViewScript.Proofs.Parser.Choice
import ViewScript.Proofs.Code.LineBreaks
import ViewScript.Proofs.Compile.LineCounts
import ViewScript.Proofs.Grammar.Views
import ViewScript.Proofs.Grammar.Arguments
import ViewScript.Proofs.Source.Counting
import ViewScript.Proofs.Diagnostic.Carets
import ViewScript.Proofs.Compile.Values
import ViewScript.Proofs.Project.Atomicity
import ViewScript.Proofs.Grammar.Lookbehind
import ViewScript.Proofs.Project.Discovery
import ViewScript.Proofs.Json.Spelling
import ViewScript.Proofs.Project.Configuration
import ViewScript.Proofs.Project.Containment
import ViewScript.Proofs.Parser.Combinators
import ViewScript.Proofs.Grammar.Delimiters
