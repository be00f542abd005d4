import RubySig.Format.Outline
import RubySig.Layout.Builder
import RubySig.Main
import RubySig.Proofs.CanonicalShape
import RubySig.Proofs.CommentsKept
import RubySig.Proofs.CommentsPlaced
import RubySig.Proofs.CommentsReread
import RubySig.Proofs.ConstantRoundTrip
import RubySig.Proofs.CountsAgree
import RubySig.Proofs.DiffApplied
import RubySig.Proofs.ErrorsLocated
import RubySig.Proofs.FilesRewritten
import RubySig.Proofs.FitsExactly
import RubySig.Proofs.ForcedBreaks
import RubySig.Proofs.FormFaithful
import RubySig.Proofs.LayoutInsensitive
import RubySig.Proofs.LexicalScopes
import RubySig.Proofs.LineWidth
import RubySig.Proofs.LinesJoined
import RubySig.Proofs.LiteralsReadBack
import RubySig.Proofs.LocationsNested
import RubySig.Proofs.MethodRoundTrip
import RubySig.Proofs.ReadTotal
import RubySig.Proofs.RecordFaithful
import RubySig.Proofs.ReportsShown
import RubySig.Proofs.RoundTrip
import RubySig.Proofs.StringsVerbatim
import RubySig.Proofs.Tree.MethodNameExtent
import RubySig.Proofs.Tree.ParamOrder
import RubySig.Proofs.WidthBlanks
