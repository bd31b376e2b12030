import AvroJsonSchema.Main
import AvroJsonSchema.Proofs.StoredTypes
import AvroJsonSchema.Proofs.NullSpellings
import AvroJsonSchema.Proofs.Repetition
import AvroJsonSchema.Proofs.Wrappers
import AvroJsonSchema.Proofs.DefinitionFree
import AvroJsonSchema.Proofs.Required
import AvroJsonSchema.Proofs.Inline
import AvroJsonSchema.Proofs.Acceptance
import AvroJsonSchema.Proofs.Positions
import AvroJsonSchema.Proofs.References
import AvroJsonSchema.Proofs.AvroTypes
import AvroJsonSchema.Proofs.Validation
import AvroJsonSchema.Proofs.Rendering
import AvroJsonSchema.Proofs.RenderedData
import AvroJsonSchema.Proofs.Reading
import AvroJsonSchema.Proofs.Scopes
import AvroJsonSchema.Proofs.Meaning
import AvroJsonSchema.Proofs.Preservation
import AvroJsonSchema.Proofs.Completion
import AvroJsonSchema.Proofs.Budgets
import AvroJsonSchema.Proofs.Faults
import AvroJsonSchema.Proofs.Failures
import AvroJsonSchema.Proofs.Origins
import AvroJsonSchema.Proofs.Headers
import AvroJsonSchema.Proofs.NullableMembers
import AvroJsonSchema.Proofs.Spelling
import AvroJsonSchema.Proofs.FullNames
import AvroJsonSchema.Proofs.Templates
import AvroJsonSchema.Proofs.Toggles
import AvroJsonSchema.Proofs.WellFormed
import AvroJsonSchema.Proofs.Mirroring
import AvroJsonSchema.Proofs.EntryPoints
import AvroJsonSchema.Proofs.SingleConversions
import AvroJsonSchema.Proofs.ReadBack
