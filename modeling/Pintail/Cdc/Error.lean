import Pintail.Types.Schema

/-! # Failures of the replication stream -/

namespace Pintail.Cdc

inductive CdcError
  | ddl (message : String)
  | invalidCheckpoint (message : String)
  | decode (message : String)
  | schema (error : SchemaError)

end Pintail.Cdc
