import Flowgraph.Database.Url
import Flowgraph.Duration
import Flowgraph.Store.Error

/-! Pools of connections to a database. -/

namespace Flowgraph.Database

structure PoolConfig where
  url : String
  maxConnections : UInt32
  /-- How long a call waits for a connection. -/
  acquireTimeout : Duration

def PoolConfig.new (url : String) (maxConnections : UInt32) : PoolConfig :=
  ⟨url, maxConnections, .seconds 5⟩

/-- What comes of opening a pool, where `login` is what the server says when it is reached. -/
def PoolConfig.open (config : PoolConfig) (login : Except DatabaseFault Unit) :
    Except StoreError Unit :=
  match Url.fault? config.url with
  | some reason => .error (.database (.configuration reason))
  | none => login.mapError .database

end Flowgraph.Database
