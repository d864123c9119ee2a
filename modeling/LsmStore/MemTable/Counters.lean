import LsmStore.InternalKey

/-!
# Counters of a memtable

What was added to a memtable is counted in 64-bit words, whose sums wrap around.
-/

namespace LsmStore

/-- What a memtable has taken in. -/
structure Counters where
  values : UInt64 := 0
  tombstones : UInt64 := 0
  /-- Writes that were left out because their version was there already. -/
  duplicates : UInt64 := 0
  keyBytes : UInt64 := 0
  valueBytes : UInt64 := 0
  deriving DecidableEq, Repr

namespace Counters

def recordAdd (counters : Counters) (kind : Kind) (keySize valueSize : UInt64) : Counters :=
  { counters with
    values := counters.values + if kind = .value then 1 else 0
    tombstones := counters.tombstones + if kind = .deletion then 1 else 0
    keyBytes := counters.keyBytes + keySize
    valueBytes := counters.valueBytes + valueSize }

def recordDuplicate (counters : Counters) : Counters :=
  { counters with duplicates := counters.duplicates + 1 }

def total (counters : Counters) : UInt64 :=
  counters.values + counters.tombstones

def report (counters : Counters) : String :=
  "MemTable metrics:\n" ++
  s!"  values:      {counters.values}\n" ++
  s!"  tombstones:  {counters.tombstones}\n" ++
  s!"  duplicates:  {counters.duplicates}\n" ++
  s!"  key bytes:   {counters.keyBytes}\n" ++
  s!"  value bytes: {counters.valueBytes}"

end Counters

end LsmStore
