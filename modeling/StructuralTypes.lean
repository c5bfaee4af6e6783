import StructuralTypes.Arena.Layout
import StructuralTypes.Descriptor.Shape
import StructuralTypes.HostType
import StructuralTypes.Tree.Alternatives
import StructuralTypes.Proofs.Reordering
import StructuralTypes.Proofs.CanonicalNumeral
import StructuralTypes.Proofs.AssignmentRules
import StructuralTypes.Proofs.AssignableAlternatives
import StructuralTypes.Proofs.Substitution
import StructuralTypes.Proofs.UnionJoin
import StructuralTypes.Proofs.Transitivity
import StructuralTypes.Proofs.AlikeTypes
import StructuralTypes.Proofs.Agreement
import StructuralTypes.Proofs.KeySelection
import StructuralTypes.Proofs.EqualOperations
import StructuralTypes.Proofs.ReadOnlyMarks
import StructuralTypes.Proofs.EqualShapes
import StructuralTypes.Proofs.ShapeAnswers
import StructuralTypes.Proofs.ObjectRule
import StructuralTypes.Proofs.RevisedShape
import StructuralTypes.Proofs.MemberModifiers
import StructuralTypes.Proofs.PropertyType
import StructuralTypes.Proofs.ShapeOrder
import StructuralTypes.Proofs.InPlace
import StructuralTypes.Proofs.InPlaceAssignability
import StructuralTypes.Proofs.Relocation
import StructuralTypes.Proofs.KeySetAlgebra
import StructuralTypes.Proofs.Reclassification
import StructuralTypes.Proofs.ObjectRoundTrip
import StructuralTypes.Proofs.FullRendering
import StructuralTypes.Proofs.UniqueReading
import StructuralTypes.Proofs.KeyRows
import StructuralTypes.Proofs.NumeralClasses
import StructuralTypes.Proofs.HostRecords
import StructuralTypes.Proofs.RawOperations
import StructuralTypes.Proofs.UnionAlgebra
import StructuralTypes.Proofs.NonShapes
import StructuralTypes.Proofs.Absorption
import StructuralTypes.Proofs.Exclusion
import StructuralTypes.Proofs.OptionalSlots
import StructuralTypes.Proofs.CategoryMembership
import StructuralTypes.Proofs.Extensionality
import StructuralTypes.Proofs.ShapeAlgebra
import StructuralTypes.Proofs.CopiedTrees
import StructuralTypes.Proofs.IntegerSpelling
import StructuralTypes.Proofs.RawBuffers
