import LateMarkup.Main
import LateMarkup.Emission
import LateMarkup.Declaration.Json
import LateMarkup.FileTree
import LateMarkup.MarkupTree
import LateMarkup.Proofs.Consistency
import LateMarkup.Proofs.Construction
import LateMarkup.Proofs.DirectMarkup
import LateMarkup.Proofs.Lossless
import LateMarkup.Proofs.MissingEntries
import LateMarkup.Proofs.PassOrder
import LateMarkup.Proofs.TopDown
import LateMarkup.Proofs.Placement
import LateMarkup.Proofs.Consumption
import LateMarkup.Proofs.KeySeparation
import LateMarkup.Proofs.OutputGrammar
import LateMarkup.Proofs.AttributeMeaning
import LateMarkup.Proofs.JsonTexts
import LateMarkup.Proofs.JsonReading
import LateMarkup.Proofs.RoundTrip
import LateMarkup.Proofs.Links
import LateMarkup.Proofs.Operations
import LateMarkup.Proofs.Seams
import LateMarkup.Proofs.Locality
import LateMarkup.Proofs.Commutation
import LateMarkup.Proofs.Numbering
import LateMarkup.Proofs.Nesting
import LateMarkup.Proofs.Surroundings
import LateMarkup.Proofs.DeclaredNames
import LateMarkup.Proofs.LiteralReading
import LateMarkup.Proofs.CapturedContent
import LateMarkup.Proofs.AttributeRewriting
import LateMarkup.Proofs.FileTrees
import LateMarkup.Proofs.Commands
import LateMarkup.Proofs.ResolveCommand
import LateMarkup.Proofs.Confinement
import LateMarkup.Proofs.Outlines
import LateMarkup.Proofs.JsonPrefixes
import LateMarkup.Proofs.FieldOrder
import LateMarkup.Proofs.RegistryTexts
import LateMarkup.Proofs.ResolvedText
import LateMarkup.Proofs.ClassEmission
import LateMarkup.Proofs.ClassMeaning
import LateMarkup.Proofs.Coverage
import LateMarkup.Proofs.HyphenatedNames
import LateMarkup.Proofs.QuotedNames
import LateMarkup.Proofs.TreeAnnotation
import LateMarkup.Proofs.StoredLinks
import LateMarkup.Proofs.StoredMarkup
import LateMarkup.Proofs.StoredForests
import LateMarkup.Proofs.StoredDocuments
import LateMarkup.Proofs.StoredWrapping
import LateMarkup.Proofs.PropertyEmission
