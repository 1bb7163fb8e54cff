import ObjectEnvelope.Digest
import ObjectEnvelope.Graph.Handle
import ObjectEnvelope.Schema.Field
import ObjectEnvelope.Text.Utf8

/-!
# Errors

Every failure is a value that names its cause. The causes fall into seven kinds, one constructor of
`WireError` each, and `WireError.message` is the only place that words them.
-/

namespace ObjectEnvelope

/-- Why a value has no encoding, or a type no place among the local types. -/
inductive EncodingFault where
  | lengthTooLarge (length : Nat)
  | nameRegistered (name : String) (held new : Digest)
  /-- The value or type called `what` does not fit the declared type. -/
  | unfit (what : String) (declared : ValueType)
  | noInstances (interfaceName : String)
  | notAnObject (typeName : String)
  | notAConstant (typeName : String)
  | dangling (handle : Handle)
  | notInstantiable (kind : TypeKind) (typeName : String)
  | graphFull
  | nullRoot
  | nestsTooDeep (maxDepth : Nat)
  | undescribedType (typeName : String)
  | cycle (typeName : String) (handle : Handle)
  | tooManyObjects
  | tooManyTypes
  | nameShared (name : String)

/-- Where a value is missing that must be there, or may be missing where it cannot. -/
inductive NullabilityFault where
  | nullablePrimitive (field : String) (type : ValueType)
  | nullSlot (owner field : String)
  | nullElement (declared : ValueType)

/-- Why a descriptor has no layout, or no place in the synthesis cache. -/
inductive LayoutFault where
  | cyclicSupertypes (ancestor name : String)
  | enumWithSupertypes (name : String)
  | tooManyConstants (name : String) (count limit : Nat)
  | kindChange (kind : TypeKind) (name : String) (parentKind : TypeKind) (parentName : String)
  | fieldConflict (owner : String) (own inherited : Field)
  | tooManySlots (name : String) (count limit : Nat)
  | digestTaken (digest : Digest) (name holder : String)
  | cyclicDependency (name : String)
  | dependenciesTooDeep (name : String) (limit : Nat)
  | unknownSupertype (name child : String)

/-- What was found in place of what was expected. -/
inductive Mismatch where
  | valueCount (typeName : String) (slots found : Nat)
  | unknownField (typeName field : String)
  /-- The value or type called `found` does not fit the declared type. -/
  | unfit (declared : ValueType) (found : String)
  | notAnEnum (typeName : String)
  | ordinalOutside (typeName : String) (constants ordinal : Nat)
  | unknownConstant (typeName constant : String)
  /-- The root has the name of a local type and another structure. -/
  | rootDigest (name : String) (held : Digest) (foundName : String) (found : Digest)

/-- Why bytes are no envelope. -/
inductive FormatFault where
  | unexpectedEnd (offset need available : Nat)
  | lengthBeyondEnd (length offset remaining : Nat)
  | invalidUtf8 (fault : Utf8.Fault)
  | shortHeader (length : Nat)
  | badMagic
  | unsupportedVersion (major minor : Nat)
  | sectionTag (expected found : UInt8)
  | trailingBytes (count : Nat)
  | trailingSchema
  | describedTwice (name : String)
  | typeKind (code : UInt8) (name : String)
  | supertypeFlag (flag : UInt8) (name : String)
  | nullabilityFlag (flag : UInt8) (owner field : String)
  | valueTypeTooDeep
  | primitiveCode (code : UInt8)
  | valueTypeTag (tag : UInt8)
  | nestsTooDeep (maxDepth : Nat)
  | boolByte (byte : UInt8)
  | charScalar (scalar : Nat)
  | listTooLong (count limit : Nat)
  | valueTag (tag : UInt8) (offset : Nat)
  | typeIndex (index entries : Nat)
  | constantOfKind (kind : TypeKind) (typeName : String)
  | objectOfKind (kind : TypeKind) (typeName : String)
  | ordinalOutside (ordinal : Nat) (typeName : String) (constants : Nat)
  | slotCount (typeName : String) (slots found : Nat)
  | trailingPayload (count : Nat)

/-- A failure, by kind and cause. -/
inductive WireError where
  | notSerializable (fault : EncodingFault)
  | nullabilityViolation (fault : NullabilityFault)
  | duplicateFieldName (owner field : String)
  | synthesisFailure (fault : LayoutFault)
  | schemaMismatch (fault : Mismatch)
  /-- A back-reference to an object that has no such number: only `known` are assigned. -/
  | referenceIntegrityViolation (id known : Nat)
  | invalidEnvelope (fault : FormatFault)

/-- The wording of the cause. -/
def EncodingFault.message : EncodingFault → String
  | lengthTooLarge length => s!"length {length} exceeds u32::MAX"
  | nameRegistered name held new =>
    s!"type {name} already registered with fingerprint {held.text} (new: {new.text})"
  | unfit what declared => s!"{what} cannot be written where {declared.text} is declared"
  | noInstances name => s!"interface {name} has no instances"
  | notAnObject name => s!"{name} serializer given a non-object value"
  | notAConstant name => s!"{name} serializer given a non-enum value"
  | dangling handle => s!"dangling object {handle.text}"
  | notInstantiable kind name => s!"{kind.name} type {name} cannot be instantiated"
  | graphFull => "object graph is full"
  | nullRoot => "root value is null"
  | nestsTooDeep maxDepth => s!"graph nests deeper than {maxDepth}"
  | undescribedType name => s!"{name} missing from schema"
  | cycle name handle => s!"cycle through {name} object {handle.text}"
  | tooManyObjects => "too many objects"
  | tooManyTypes => "too many types"
  | nameShared name => s!"two different types named {name} in one graph"

/-- The field that is at fault. -/
def NullabilityFault.field : NullabilityFault → String
  | nullablePrimitive field _ => field
  | nullSlot _ field => field
  | nullElement _ => "<element>"

/-- The type that is at fault. -/
def NullabilityFault.typeName : NullabilityFault → String
  | nullablePrimitive _ type => "primitive " ++ type.text
  | nullSlot owner _ => owner
  | nullElement declared => declared.text

/-- The wording of the cause. -/
def LayoutFault.message : LayoutFault → String
  | cyclicSupertypes ancestor name => s!"cyclic supertype chain through {ancestor} in {name}"
  | enumWithSupertypes name => s!"enum {name} cannot declare a supertype or interfaces"
  | tooManyConstants name count limit => s!"enum {name} has {count} constants (max {limit})"
  | kindChange kind name parentKind parentName =>
    s!"{kind.name} {name} cannot extend {parentKind.name} {parentName}"
  | fieldConflict owner own inherited =>
    s!"field {owner}.{own.name} ({own.text}) conflicts with inherited layout ({inherited.text})"
  | tooManySlots name count limit => s!"{name} needs {count} slots (max {limit})"
  | digestTaken digest name holder =>
    s!"fingerprint {digest.text} of {name} already belongs to {holder}"
  | cyclicDependency name => s!"cyclic type dependency through {name}"
  | dependenciesTooDeep name limit => s!"type dependencies of {name} nest deeper than {limit}"
  | unknownSupertype name child =>
    s!"supertype {name} of {child} is neither in the schema nor registered"

/-- What was expected. -/
def Mismatch.expected : Mismatch → String
  | valueCount typeName slots _ => s!"{slots} values for {typeName}"
  | unknownField typeName _ => s!"field of {typeName}"
  | unfit declared _ => declared.text
  | notAnEnum _ => "enum type"
  | ordinalOutside typeName constants _ => s!"ordinal < {constants} for {typeName}"
  | unknownConstant typeName _ => s!"constant of {typeName}"
  | rootDigest name held _ _ => s!"{name} ({held.text})"

/-- What was found. -/
def Mismatch.found : Mismatch → String
  | valueCount _ _ found => s!"{found} values"
  | unknownField _ field => field
  | unfit _ found => found
  | notAnEnum typeName => typeName
  | ordinalOutside _ _ ordinal => s!"{ordinal}"
  | unknownConstant _ constant => constant
  | rootDigest _ _ foundName found => s!"{foundName} ({found.text})"

/-- The wording of the cause. -/
def FormatFault.message : FormatFault → String
  | unexpectedEnd offset need available =>
    s!"unexpected end of buffer at offset {offset}: need {need} bytes, have {available}"
  | lengthBeyondEnd length offset remaining =>
    s!"length {length} at offset {offset} exceeds remaining {remaining} bytes"
  | invalidUtf8 fault => s!"invalid UTF-8: {fault.message}"
  | shortHeader length => s!"{length} bytes is shorter than the 8-byte header"
  | badMagic => "bad magic"
  | unsupportedVersion major minor => s!"unsupported version {major}.{minor}"
  | sectionTag expected found =>
    s!"expected section {Hex.marked expected}, found {Hex.marked found}"
  | trailingBytes count => s!"{count} trailing bytes after schema"
  | trailingSchema => "trailing bytes in schema section"
  | describedTwice name => s!"type {name} described twice"
  | typeKind code name => s!"unknown type kind {code} for {name}"
  | supertypeFlag flag name => s!"invalid supertype flag {flag} for {name}"
  | nullabilityFlag flag owner field => s!"invalid nullability flag {flag} on {owner}.{field}"
  | valueTypeTooDeep => "value type nesting too deep"
  | primitiveCode code => s!"unknown primitive code {code}"
  | valueTypeTag tag => s!"unknown value type tag {tag}"
  | nestsTooDeep maxDepth => s!"payload nests deeper than {maxDepth}"
  | boolByte byte => s!"invalid bool byte {Hex.marked byte}"
  | charScalar scalar => s!"invalid char 0x{Hex.digits scalar}"
  | listTooLong count limit => s!"list of {count} elements exceeds limit {limit}"
  | valueTag tag offset => s!"unknown tag {Hex.marked tag} at payload offset {offset}"
  | typeIndex index entries => s!"type index {index} outside schema of {entries} entries"
  | constantOfKind kind typeName => s!"enum constant tagged with {kind.name} type {typeName}"
  | objectOfKind kind typeName => s!"object tagged with {kind.name} type {typeName}"
  | ordinalOutside ordinal typeName constants =>
    s!"ordinal {ordinal} out of range for {typeName} ({constants} constants)"
  | slotCount typeName slots found =>
    s!"{typeName} has {slots} slots, payload carries {found}"
  | trailingPayload count => s!"{count} trailing payload bytes"

/-- The seven kinds of failure. -/
inductive ErrorKind where
  | notSerializable
  | nullabilityViolation
  | duplicateFieldName
  | synthesisFailure
  | schemaMismatch
  | referenceIntegrityViolation
  | invalidEnvelope
  deriving DecidableEq, Repr

/-- The name of the kind. -/
def ErrorKind.name : ErrorKind → String
  | notSerializable => "NotSerializable"
  | nullabilityViolation => "NullabilityViolation"
  | duplicateFieldName => "DuplicateFieldName"
  | synthesisFailure => "SynthesisFailure"
  | schemaMismatch => "SchemaMismatch"
  | referenceIntegrityViolation => "ReferenceIntegrityViolation"
  | invalidEnvelope => "InvalidEnvelope"

/-- The kind of a failure. -/
def WireError.kind : WireError → ErrorKind
  | notSerializable _ => .notSerializable
  | nullabilityViolation _ => .nullabilityViolation
  | duplicateFieldName _ _ => .duplicateFieldName
  | synthesisFailure _ => .synthesisFailure
  | schemaMismatch _ => .schemaMismatch
  | referenceIntegrityViolation _ _ => .referenceIntegrityViolation
  | invalidEnvelope _ => .invalidEnvelope

/-- The wording of the failure. -/
def WireError.message : WireError → String
  | notSerializable fault => s!"not serializable: {fault.message}"
  | nullabilityViolation fault =>
    s!"nullability violation on field {fault.field} ({fault.typeName})"
  | duplicateFieldName owner field => s!"duplicate field name {field} in {owner}"
  | synthesisFailure fault => s!"type synthesis failed: {fault.message}"
  | schemaMismatch fault => s!"schema mismatch: expected {fault.expected}, found {fault.found}"
  | referenceIntegrityViolation id known =>
    s!"back-reference to unknown object id {id} ({known} ids assigned)"
  | invalidEnvelope fault => s!"invalid envelope: {fault.message}"

end ObjectEnvelope
