import LsmStore.Failure

/-!
# Configuration of a memtable
-/

namespace LsmStore

structure Config where
  /-- The size of the blocks from which records are carved. -/
  arenaBlockSize : Nat := 4096
  /-- Makes the heights of the towers reproducible. -/
  heightSeed : Option UInt64 := none
  deriving DecidableEq, Repr

namespace Config

/-- The smallest blocks that a memtable accepts. -/
def leastArenaBlockSize : Nat := 64

def validate (config : Config) : Except StoreError Unit :=
  if config.arenaBlockSize < leastArenaBlockSize then
    .error (.smallArenaBlock leastArenaBlockSize config.arenaBlockSize)
  else .ok ()

theorem arenaBlockSize_pos
    {config : Config}
    (hvalid : config.validate = .ok ()) :
    0 < config.arenaBlockSize := by
  unfold validate at hvalid
  split at hvalid
  · cases hvalid
  · simp only [leastArenaBlockSize] at *
    omega

end Config

end LsmStore
