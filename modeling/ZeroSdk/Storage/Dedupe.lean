/-
The dedupe cache of sector ids: an LRU cache where `seen` does not promote.
-/
import ZeroSdk.Lib.Lru
import ZeroSdk.Storage.Db

namespace ZeroSdk

/-- `DedupeCache`. -/
structure DedupeCache where
  inner : Lru SectorId

namespace DedupeCache

/-- `new`, which panics at capacity 0. -/
def new (capacity : Nat) (pos : 0 < capacity) : DedupeCache := ⟨Lru.new capacity pos⟩

def seen (cache : DedupeCache) (id : SectorId) : Bool := cache.inner.peek id

def mark (cache : DedupeCache) (id : SectorId) : DedupeCache := ⟨cache.inner.put id⟩

def len (cache : DedupeCache) : Nat := cache.inner.entries.length

end DedupeCache

end ZeroSdk
