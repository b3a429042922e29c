import ProtoSchema.Proofs.Symbol
import ProtoSchema.Proofs.Nested
import ProtoSchema.Grammar.Progress
import ProtoSchema.Parse
import ProtoSchema.Token.Display
import ProtoSchema.Tree.Visit
import ProtoSchema.Proofs.Phrase
import ProtoSchema.Proofs.Spelling
import ProtoSchema.Proofs.Derivation
import ProtoSchema.Proofs.Alike
import ProtoSchema.Proofs.Locality
import ProtoSchema.Proofs.Genuine
import ProtoSchema.Proofs.Acceptance
import ProtoSchema.Proofs.Completeness
import ProtoSchema.Proofs.Checked.Parse
import ProtoSchema.Proofs.Comments.SameLine
import ProtoSchema.Proofs.Comments.Boundary
import ProtoSchema.Proofs.Classification
import ProtoSchema.Proofs.Lexing.Tiling
import ProtoSchema.Proofs.Lexing.LineEnds
import ProtoSchema.Proofs.Neighbours.Concatenation
import ProtoSchema.Proofs.Lexing.CarriageReturns
import ProtoSchema.Proofs.Literals.StringLiteral
import ProtoSchema.Proofs.Literals.Written
import ProtoSchema.Proofs.Blame
import ProtoSchema.Proofs.Omissions
import ProtoSchema.Proofs.Neighbours.TopLevel
import ProtoSchema.Proofs.Notation.Rewriting
import ProtoSchema.Proofs.Coordinates
import ProtoSchema.Proofs.DistinctNames
import ProtoSchema.Proofs.Literals.FixedWidth
import ProtoSchema.Proofs.Comments.Decoration
import ProtoSchema.Proofs.Notation.OptionNames
import ProtoSchema.Proofs.Courses.Misses
import ProtoSchema.Proofs.Lexing.TrailingComments
import ProtoSchema.Proofs.Notation.ImportPaths
