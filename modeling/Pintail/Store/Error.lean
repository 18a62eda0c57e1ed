import Pintail.Types.Schema

/-! # Failures of the storage engine -/

namespace Pintail

/-- A failed operation. An operating-system failure keeps the action it interrupted. -/
inductive StoreError
  | io (action : String)
  | schema (error : SchemaError)
  | corruptWal (offset : ℕ) (reason : String)
  | corruptManifest (offset : ℕ) (reason : String)
  | corruptSegment (offset : ℕ) (reason : String)
  | schemaMismatch (expected actual : UInt32)
  | schemaFingerprintMismatch (expected actual : UInt64)
  | incompatibleSchema (reason : String)
  | sequenceOverflow
  | formatLimit (reason : String)
  deriving DecidableEq, Repr

end Pintail
