import LsmStore.Arena.Basic

/-!
# A client of an arena

The client keeps every region that it was given and writes what it likes into
them, in any order.
-/

namespace LsmStore.Arena

/-- An arena with the regions that it handed out, in order. -/
structure Client where
  arena : Arena
  regions : Array Region

namespace Client

inductive Request where
  | allocate (size : Nat)
  /-- Writes bytes into the region that was handed out with that number. -/
  | write (index : Nat) (bytes : Bytes)
  deriving DecidableEq, Repr

def ofArena (arena : Arena) : Client :=
  ⟨arena, #[]⟩

def allocate (client : Client) (size : Nat) : Except Fault Client := do
  let (region, arena) ← client.arena.allocate size
  return ⟨arena, client.regions.push region⟩

/-- Writes into a region, if there is one of that number. -/
def write (client : Client) (index : Nat) (bytes : Bytes) : Client :=
  match client.regions[index]? with
  | some region => { client with arena := client.arena.write region bytes }
  | none => client

def serve (client : Client) : Request → Except Fault Client
  | .allocate size => client.allocate size
  | .write index bytes => .ok (client.write index bytes)

def serveAll (client : Client) (requests : List Request) : Except Fault Client :=
  requests.foldlM serve client

/-- What a region now holds; nothing if there is no region of that number. -/
def contents (client : Client) (index : Nat) : Bytes :=
  match client.regions[index]? with
  | some region => client.arena.read region
  | none => []

end Client

end LsmStore.Arena
