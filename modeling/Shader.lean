import Shader.Main
import Shader.Syntax.Bare
import Shader.Source.Lines
import Shader.Command.Files
import Shader.Proofs.Derivation
import Shader.Proofs.Erasure
import Shader.Proofs.Trace
import Shader.Proofs.Agreement
import Shader.Proofs.Declaration
import Shader.Proofs.Judgement
import Shader.Proofs.WellTyped
import Shader.Proofs.Names
import Shader.Proofs.Demotion
import Shader.Proofs.InjectedPath
import Shader.Proofs.Shape
import Shader.Proofs.Grouping
import Shader.Proofs.DecimalPoint
import Shader.Proofs.Provenance
import Shader.Proofs.WholeDouble
import Shader.Proofs.KnownValue
import Shader.Proofs.Emission
import Shader.Proofs.Relevance
import Shader.Proofs.Effects
import Shader.Proofs.Leaves
import Shader.Proofs.NumberText
import Shader.Proofs.Warnings
import Shader.Proofs.CommonCode
import Shader.Proofs.Balance
import Shader.Proofs.Location
import Shader.Proofs.SpanErasure
import Shader.Proofs.Encoding
import Shader.Proofs.Loading
import Shader.Proofs.Presentation
import Shader.Proofs.Scripts
import Shader.Proofs.Delivery
import Shader.Proofs.Recovery
import Shader.Proofs.SignedText
import Shader.Proofs.PrefixSigns
import Shader.Proofs.Expansion
import Shader.Proofs.FirstAssignment
import Shader.Proofs.NearestDouble
import Shader.Proofs.IntegerFolding
import Shader.Proofs.PathText
import Shader.Proofs.Operands
import Shader.Proofs.Positions
import Shader.Proofs.LoadedLiterals
import Shader.Proofs.FiniteConstants
import Shader.Proofs.PathResolution
import Shader.Proofs.RegistryIndex
import Shader.Proofs.Returns
import Shader.Proofs.SourceOrder
import Shader.Proofs.Printing
import Shader.Proofs.TypeText
import Shader.Proofs.LinePosition
import Shader.Proofs.ReportedPlace
import Shader.Proofs.Settling
