/-!
# Load on miss

A guarded map can fill itself: a read that misses calls a loader and stores what it gives.
The read is made once outside the key's flight and once more inside it, so a value stored in
between (by an earlier load, or by anyone else) is returned without loading. A loader that
fails leaves the map as it was and its reason is wrapped with the key.

The reads, the store and the loader are parameters, so the same definition serves a plain
map in a state monad and a map with observers attached.
-/

namespace RecencyMap

/-- Why a read-or-load gave no value. -/
inductive LoadError (κ : Type) where
  /-- The map has no loader. -/
  | noLoader
  /-- The loader failed for `key` with `reason`. -/
  | failed (key : κ) (reason : String)

/-- The text of a load error; the key prints as its plain text or decimal form. -/
def LoadError.message {κ : Type} [ToString κ] : LoadError κ → String
  | .noLoader => "cache: no Loader provided"
  | .failed k reason => s!"cache: load {k}: {reason}"

/-- Read `k`; on a miss, read again inside the key's flight (a lone caller always leads it),
then load and store. -/
def getOrLoad {m : Type → Type} [Monad m] {κ ν : Type}
    (get : κ → m (Option ν)) (push : κ → ν → m Unit)
    (loader : Option (κ → m (Except String ν))) (k : κ) : m (Except (LoadError κ) ν) := do
  if let some v ← get k then return .ok v
  let some load := loader | return .error .noLoader
  if let some v ← get k then return .ok v
  match ← load k with
  | .error reason => return .error (.failed k reason)
  | .ok v =>
    push k v
    return .ok v

end RecencyMap
