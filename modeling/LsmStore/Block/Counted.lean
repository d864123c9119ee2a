/-!
# Counting headers

How much a search costs is the number of entry headers that cursors step onto.
A computation over a block gives its result together with that number.
-/

namespace LsmStore.Block

/-- A result and the number of entry headers that were stepped onto for it. -/
structure Counted (Result : Type) where
  result : Result
  headers : Nat
  deriving DecidableEq, Repr

namespace Counted

instance : Monad Counted where
  pure result := ⟨result, 0⟩
  bind computed next :=
    let following := next computed.result
    ⟨following.result, computed.headers + following.headers⟩

def tick : Counted Unit := ⟨(), 1⟩

@[simp]
theorem result_pure
    (result : Result) :
    (pure result : Counted Result).result = result :=
  rfl

@[simp]
theorem headers_pure
    (result : Result) :
    (pure result : Counted Result).headers = 0 :=
  rfl

@[simp]
theorem result_bind
    (computed : Counted First) (next : First → Counted Second) :
    (computed >>= next).result = (next computed.result).result :=
  rfl

@[simp]
theorem headers_bind
    (computed : Counted First) (next : First → Counted Second) :
    (computed >>= next).headers = computed.headers + (next computed.result).headers :=
  rfl

@[simp]
theorem result_tick : tick.result = () :=
  rfl

@[simp]
theorem headers_tick : tick.headers = 1 :=
  rfl

instance : LawfulMonad Counted :=
  LawfulMonad.mk' Counted (fun _ => rfl)
    (fun result next => by
      cases hnext : next result with
      | mk following headers => simp [bind, pure, hnext])
    (fun computed next last => by simp [bind, Nat.add_assoc])

end Counted

end LsmStore.Block
