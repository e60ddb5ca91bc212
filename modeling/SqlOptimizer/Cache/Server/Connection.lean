import SqlOptimizer.Cache.Command.Dispatcher

/-! `cache/internal/server`: the connections of the clients, over one store. -/

namespace SqlOptimizer.Cache

/-- A command of a connection, as it was answered. -/
structure Answer where
  args : List Bytes
  ctx : Context
  reply : RespValue

/-- A connection: the bytes that the client sends and those still unread, the bytes written to the
client, and for reference the commands answered. -/
structure Connection where
  sent : Bytes
  input : Bytes
  output : Bytes
  answers : List Answer
  closed : Bool

structure Server (n : Nat) where
  store : ShardedStore n
  connections : Nat → Option Connection

/-- What can happen in a server: a client connects, the loop of a connection makes one round, or the
expiration worker sweeps a shard. -/
inductive Event (n : Nat) where
  | accept (client : Nat) (sent : Bytes)
  | serve (client : Nat) (ctx : Context)
  | sweep (i : Fin n) (now : Time)

variable {n : Nat}

namespace Server

/-- A server with no connection yet. -/
def start (store : ShardedStore n) : Server n := ⟨store, fun _ => none⟩

def setConnection (srv : Server n) (client : Nat) (conn : Connection) : Server n :=
  { srv with connections := Function.update srv.connections client (some conn) }

/-- The body of the loop of `Serve`. -/
def accept (srv : Server n) (client : Nat) (sent : Bytes) : Server n :=
  match srv.connections client with
  | some _ => srv
  | none =>
    let m := srv.store.metrics
    let m := { m with
      connections := m.connections + 1
      totalConnections := m.totalConnections + 1 }
    let srv := { srv with store := { srv.store with metrics := m } }
    srv.setConnection client ⟨sent, sent, [], [], false⟩

/-- The connection is closed, and counted out. -/
def close (srv : Server n) (client : Nat) (conn : Connection) : Server n :=
  let m := srv.store.metrics
  let m := { m with connections := m.connections - 1 }
  let srv := { srv with store := { srv.store with metrics := m } }
  srv.setConnection client { conn with closed := true }

variable [NeZero n] [Rounding]

/-- The command is dispatched, and its reply is written. -/
def answer (srv : Server n) (client : Nat) (conn : Connection) (ctx : Context) (args : List Bytes)
    (input : Bytes) : Server n :=
  let (reply, store) := dispatch args ctx srv.store
  let srv := { srv with store := store }
  srv.setConnection client
    { conn with
      input := input
      output := conn.output ++ writeRESP reply
      answers := conn.answers ++ [⟨args, ctx, reply⟩] }

/-- One round of the loop of `handleConnection`. -/
def handleConnection (srv : Server n) (client : Nat) (ctx : Context) : Server n :=
  match srv.connections client with
  | none => srv
  | some conn =>
    if conn.closed then srv
    else
      match parseCommand conn.input with
      | .error _ => srv.close client conn
      | .ok (args, input) => srv.answer client conn ctx args input

def step (srv : Server n) : Event n → Server n
  | .accept client sent => srv.accept client sent
  | .serve client ctx => srv.handleConnection client ctx
  | .sweep i now => { srv with store := srv.store.sweepShard i now }

def run (srv : Server n) (events : List (Event n)) : Server n := events.foldl step srv

end Server

end SqlOptimizer.Cache
