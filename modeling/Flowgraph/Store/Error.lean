/-! Why a store refuses a call. -/

namespace Flowgraph

/-- What a database connection can report. -/
inductive DatabaseFault
  | rowNotFound
  | reported (message : String)
  | columnNotFound (column : String)
  | unexpectedNull (column : String)
  /-- A status column that holds no status. -/
  | unreadableStatus (column : String)
  /-- The address of the database cannot be used. -/
  | configuration (reason : String)
  /-- The connection has failed. -/
  | broken (reason : String)
  deriving DecidableEq

def DatabaseFault.message : DatabaseFault → String
  | rowNotFound => "no rows returned by a query that expected to return at least one row"
  | reported message => "error returned from database: " ++ message
  | columnNotFound column => "no column found for name: " ++ column
  | unexpectedNull column =>
    "error occurred while decoding column \"" ++ column ++
      "\": unexpected null; try decoding as an `Option`"
  | unreadableStatus column =>
    "error occurred while decoding column " ++ column ++
      ": unprintable error: (unprintable type)"
  | configuration reason => "error with configuration: " ++ reason
  | broken reason => "error communicating with database: " ++ reason

/-- What lies behind a fault, if it has a reason of its own. -/
def DatabaseFault.reason? : DatabaseFault → Option String
  | configuration reason | broken reason => some reason
  | _ => none

inductive StoreError
  | notFound
  | unavailable (reason : String)
  | database (fault : DatabaseFault)
  deriving DecidableEq

namespace StoreError

def message : StoreError → String
  | notFound => "row not found"
  | unavailable reason => "store unavailable: " ++ reason
  | database fault => "sqlx error: " ++ fault.message

/-- The messages of an error and of all that lies behind it, the outermost first. -/
def chain : StoreError → List String
  | database fault => (database fault).message :: fault.message :: fault.reason?.toList
  | e => [e.message]

end StoreError

end Flowgraph
