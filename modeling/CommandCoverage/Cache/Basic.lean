import CommandCoverage.Cache.Digest
import CommandCoverage.Decimal.Rounded
import CommandCoverage.Path
import CommandCoverage.Table
import CommandCoverage.Text.Surrogate

namespace CommandCoverage

namespace CacheKey

def hashed (path content : String) : List UInt8 :=
  path.toUTF8.toList ++ 0 :: content.toUTF8.toList

def safePath (path : String) : String :=
  String.ofList (path.toList.map fun c ↦ if c.isAlphanum then c else '_')

def ofNormalized (path content : String) : String :=
  safePath path ++ "_" ++ Digest.hex ((Digest.sha256 (hashed path content)).take 8)

def of (path content : String) : String := ofNormalized (Path.normalize path) content

/-- Why a content under an absolute path has no key: there are no bytes to be hashed. -/
def fault? (s : Text.Surrogates) (path content : String) : Option Text.EncodeFault :=
  (Text.encodeFault? s (Path.normalize path)).or (Text.encodeFault? s content)

end CacheKey

inductive CacheEntry (T α : Type) where
  | parsed (value : α) (setAt : T)
  | foreign
  deriving Repr

structure ParseCache (T α : Type) where
  ttl : T
  maxSize : Nat
  enabled : Bool := true
  entries : Table (CacheEntry T α) := {}
  hits : Nat := 0
  misses : Nat := 0

inductive CacheFault where
  | ttlNotPositive
  | sizeNotPositive
  deriving DecidableEq, Repr

def CacheFault.message : CacheFault → String
  | ttlNotPositive => "ttl must be positive"
  | sizeNotPositive => "max_size must be at least 1"

namespace ParseCache

variable {T α : Type}

/-- An empty cache; its entries must be able to live and to fit. -/
def new [LE T] [DecidableLE T] [OfNat T 0] (ttl : T) (maxSize : Int) (enabled : Bool) :
    Except CacheFault (ParseCache T α) :=
  if ttl ≤ 0 then .error .ttlNotPositive
  else if maxSize < 1 then .error .sizeNotPositive
  else .ok { ttl, maxSize := maxSize.toNat, enabled }

def size (c : ParseCache T α) : Nat := c.entries.entries.length

def isFresh [Sub T] [LT T] [DecidableLT T] (c : ParseCache T α) (now setAt : T) : Bool :=
  now - setAt < c.ttl

/-- Looks a key up. An entry that is too old or foreign goes. -/
def get [Sub T] [LT T] [DecidableLT T] (c : ParseCache T α) (now : T) (key : String) :
    Option α × ParseCache T α :=
  if !c.enabled then (none, c)
  else
    match c.entries.get? key with
    | some (.parsed v setAt) =>
      if c.isFresh now setAt then (some v, { c with hits := c.hits + 1 })
      else (none, { c with entries := c.entries.erase key, misses := c.misses + 1 })
    | some .foreign => (none, { c with entries := c.entries.erase key, misses := c.misses + 1 })
    | none => (none, { c with misses := c.misses + 1 })

/-- The entries that stay when one more is to come: the latest that leave it a place. -/
def makeRoom (maxSize : Nat) (es : List (String × CacheEntry T α)) :
    List (String × CacheEntry T α) :=
  es.drop (es.length + 1 - maxSize)

def set (c : ParseCache T α) (now : T) (key : String) (v : α) : ParseCache T α :=
  if !c.enabled then c
  else
    let kept := makeRoom c.maxSize (c.entries.erase key).entries
    { c with entries := ⟨kept ++ [(key, .parsed v now)]⟩ }

def find [Sub T] [LT T] [DecidableLT T] (s : Text.Surrogates) (c : ParseCache T α) (now : T)
    (path content : String) : Except Text.EncodeFault (Option α) × ParseCache T α :=
  match if c.enabled then CacheKey.fault? s path content else none with
  | some f => (.error f, c)
  | none => (c.get now (CacheKey.of path content)).map .ok id

def store (s : Text.Surrogates) (c : ParseCache T α) (now : T) (path content : String) (v : α) :
    Except Text.EncodeFault Unit × ParseCache T α :=
  match if c.enabled then CacheKey.fault? s path content else none with
  | some f => (.error f, c)
  | none => (.ok (), c.set now (CacheKey.of path content) v)

def clear (c : ParseCache T α) : ParseCache T α :=
  { c with entries := {}, hits := 0, misses := 0 }

def corrupt (c : ParseCache T α) (key : String) : ParseCache T α :=
  { c with entries := c.entries.set key .foreign }

def hitRate (c : ParseCache T α) : String :=
  let lookups := c.hits + c.misses
  if lookups == 0 then "0%"
  else fixedPlaces 1 (Float.ofNat c.hits / Float.ofNat lookups * 100) ++ "%"

end ParseCache

end CommandCoverage
