import ApiDocs.Configuration
import ApiDocs.Launcher
import ApiDocs.Main
import ApiDocs.Proofs.Build.Anew
import ApiDocs.Proofs.Build.Configure
import ApiDocs.Proofs.Build.Logos
import ApiDocs.Proofs.Build.Prepare
import ApiDocs.Proofs.Build.Repeated
import ApiDocs.Proofs.DataClass.Growing
import ApiDocs.Proofs.DataClass.Lifted
import ApiDocs.Proofs.DataClass.Untitled
import ApiDocs.Proofs.DataClass.Updated
import ApiDocs.Proofs.File.Below
import ApiDocs.Proofs.File.Change
import ApiDocs.Proofs.File.Confined
import ApiDocs.Proofs.File.Directory
import ApiDocs.Proofs.File.Downward
import ApiDocs.Proofs.File.Lockstep
import ApiDocs.Proofs.File.Maintained
import ApiDocs.Proofs.File.Name
import ApiDocs.Proofs.File.Pair
import ApiDocs.Proofs.File.Resolution
import ApiDocs.Proofs.File.Rounds
import ApiDocs.Proofs.File.Run
import ApiDocs.Proofs.File.Same
import ApiDocs.Proofs.File.Shape
import ApiDocs.Proofs.File.Twin
import ApiDocs.Proofs.File.Written
import ApiDocs.Proofs.Html.CallLinks
import ApiDocs.Proofs.Html.Corrected
import ApiDocs.Proofs.Html.Encodable
import ApiDocs.Proofs.Html.Paragraphs
import ApiDocs.Proofs.Html.SourceLinks
import ApiDocs.Proofs.Html.TensorElements
import ApiDocs.Proofs.Html.Walk
import ApiDocs.Proofs.Index.Blocks
import ApiDocs.Proofs.Index.Rearranged
import ApiDocs.Proofs.Index.Staying
import ApiDocs.Proofs.Instance.Filed
import ApiDocs.Proofs.Instance.Merged
import ApiDocs.Proofs.Instance.Twice
import ApiDocs.Proofs.Module.Headers
import ApiDocs.Proofs.Pages.ClassPages
import ApiDocs.Proofs.Pages.Members
import ApiDocs.Proofs.Module.Location
import ApiDocs.Proofs.Pages.Again
import ApiDocs.Proofs.Pages.Closing
import ApiDocs.Proofs.Pages.Complete
import ApiDocs.Proofs.Pages.Confinement
import ApiDocs.Proofs.Pages.Layout
import ApiDocs.Proofs.Pages.Namespace
import ApiDocs.Proofs.Pages.Order
import ApiDocs.Proofs.Pages.Settled
import ApiDocs.Proofs.Pages.Skipped
import ApiDocs.Proofs.Pages.Touched
import ApiDocs.Proofs.Pages.Twice
import ApiDocs.Proofs.Pages.Visit
import ApiDocs.Proofs.Readme.Images
import ApiDocs.Proofs.StubExtraction
import ApiDocs.Proofs.StubGathering
import ApiDocs.Proofs.StubGrowth
import ApiDocs.Proofs.StubPasses
import ApiDocs.Proofs.StubReading
import ApiDocs.Proofs.StubSections
import ApiDocs.Proofs.Text.Cuts
import ApiDocs.Proofs.Text.Decoding
import ApiDocs.Proofs.Text.Encoding
import ApiDocs.Proofs.Text.Order
import ApiDocs.Proofs.Text.Patch
import ApiDocs.Proofs.Text.Pieces
import ApiDocs.Proofs.Text.Plain
import ApiDocs.Proofs.Text.Replace
import ApiDocs.Proofs.Text.Search
import ApiDocs.Proofs.Text.Substitute
import ApiDocs.Proofs.Text.Unmarked
import ApiDocs.Support
import ApiDocs.Proofs.Instance.Listed
import ApiDocs.Proofs.Text.Independent
import ApiDocs.Proofs.Html.ModuleLinks
import ApiDocs.Proofs.Html.FrameworkMarks
import ApiDocs.Proofs.Html.Breadcrumbs
import ApiDocs.Proofs.Html.MarkedNames
import ApiDocs.Proofs.Html.Failures
import ApiDocs.Proofs.Html.NameScan
import ApiDocs.Proofs.Html.NamespaceTable
import ApiDocs.Proofs.Support.BaseNames
import ApiDocs.Proofs.Support.Flags
