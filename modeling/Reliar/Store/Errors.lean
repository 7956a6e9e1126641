/-
# `Reliar.Store.Errors` — what the PostgreSQL provider returns
(`reliar-store-postgres`: `error.rs`)

A database error is classified by the class of its SQLSTATE; everything else the
provider returns is permanent.
-/
import Reliar.Outbox.Types

namespace Reliar.Store.Postgres

open Reliar.Core Reliar.Outbox

/-- What the store looks at in a `sqlx::Error`: the SQLSTATE of a database error. -/
inductive SqlxError
  | database (code : Option String)
  /-- a connection, an I/O or a pool error -/
  | other
  deriving DecidableEq

/-- `str::get(..2)`. -/
def getTwo (s : String) : Option String :=
  if isCharBoundary s.toList 2 then some (String.ofList (takeBytes s.toList 2)) else none

def classifySqlstate : SqlxError → FailureKind
  | .other => .transient
  | .database none => .transient
  | .database (some code) =>
      let class' := getTwo code
      if class' ∈ [some "08", some "40", some "53", some "55"] then .transient
      else if class' = some "57" ∧ code = "57014" then .transient
      else if class' ∈ [some "22", some "23", some "42"] then .permanent
      else .transient

def isUndefinedTable (err : SqlxError) : Bool := decide (err = .database (some "42P01"))

inductive PostgresStoreError
  | schemaResolution (configured observed : String)
  | notMigrated (schema : String)
  | database (source : SqlxError)
  | decode (id : MessageId) (detail : String)
  | unknownMetadataVersion (id : MessageId) (version : Int)
  | duplicateMessage (id : MessageId)
  | invalidSchema (schema : String)

instance : Classify PostgresStoreError where
  kind
    | .database source => classifySqlstate source
    | _ => .permanent

def mapOperationalError (schema : String) (err : SqlxError) : PostgresStoreError :=
  if isUndefinedTable err then .notMigrated schema else .database err

end Reliar.Store.Postgres
