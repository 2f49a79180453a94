import Stencil.Main
import Stencil.Proofs.Pattern.ListMatching
import Stencil.Proofs.Pattern.Language
import Stencil.Proofs.Registry.Growing
import Stencil.Proofs.Template.Agreeing
import Stencil.Proofs.Template.Failing
import Stencil.Proofs.Template.FormattedPath
import Stencil.Proofs.Template.FormattedText
import Stencil.Proofs.Template.Repeating
import Stencil.Proofs.Template.Covering
import Stencil.Proofs.Pattern.Shortened
import Stencil.Proofs.Pattern.ShortenedSearch
import Stencil.Proofs.Pattern.Progress
import Stencil.Proofs.Pattern.WithDollar
import Stencil.Proofs.Template.Extracting
import Stencil.Proofs.Registry.WriteOnce
import Stencil.Proofs.Registry.Circles
import Stencil.Proofs.Registry.Reloading
import Stencil.Proofs.Registry.Retrying
import Stencil.Proofs.Definition.Splitting
import Stencil.Proofs.Registry.Nesting
import Stencil.Proofs.Path.Joining
import Stencil.Proofs.Token.Integers
import Stencil.Proofs.Token.Enforcing
import Stencil.Proofs.Template.Relative
import Stencil.Proofs.Pattern.InsideNamed
import Stencil.Proofs.Pattern.ProgressPlain
import Stencil.Proofs.Template.Excess
import Stencil.Proofs.Template.SearchFields
import Stencil.Proofs.Definition.Expanding
import Stencil.Proofs.Token.ZeroPadding
import Stencil.Proofs.Registry.Taken
import Stencil.Proofs.Registry.CallPath
import Stencil.Proofs.Template.Readable
import Stencil.Proofs.Token.Confined
import Stencil.Proofs.Registry.Unset
import Stencil.Proofs.Registry.Held
