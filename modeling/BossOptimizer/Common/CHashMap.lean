import BossOptimizer.Lib.Classes

/-!
# Hash maps: `CHashMap` (CHashMap.h) and `CHashMapIter` (CHashMapIter.h)

The entries live in chains, found by the hash value of a key; the number of entries and the order
in which an iterator visits them are kept beside them, in `m_size` and in an array of pointers to
the keys. `Delete` destroys an entry with its key and touches neither of the two.

A value is a pointer, `none` is NULL. `m_filled_chains`, which the destructor alone reads, is left
out.
-/

namespace BossOptimizer

/-- `HashFn` and `EqFn`, consistent with each other. -/
structure HashKeys (K : Type) where
  HashFn : K → ℕ
  EqFn : K → K → Bool
  refl : ∀ k, EqFn k k = true
  symm : ∀ k k', EqFn k k' = true → EqFn k' k = true
  trans : ∀ k k' k'', EqFn k k' = true → EqFn k' k'' = true → EqFn k k'' = true
  hash_eq : ∀ k k', EqFn k k' = true → HashFn k = HashFn k'

/-- `CHashMap::CHashMapElem`. -/
structure CHashMapElem (K T : Type) where
  m_key : K
  m_value : Option T
  deriving DecidableEq, Repr

/-- `CHashMap`. A pointer in `m_keys` is `none` once its key has been destroyed. -/
structure CHashMap (K T : Type) where
  m_num_chains : ℕ
  m_size : ℕ
  m_chains : ℕ → List (CHashMapElem K T)
  m_keys : List (Option K)

namespace CHashMap

variable {K T : Type}

def new (num_chains : ℕ) : CHashMap K T := ⟨num_chains, 0, fun _ => [], []⟩

variable (fns : HashKeys K)

/-- `GetChain` (CHashMap.h:147). -/
def GetChain (m : CHashMap K T) (key : K) : ℕ := fns.HashFn key % m.m_num_chains

/-- `Lookup` (CHashMap.h:168). -/
def Lookup (m : CHashMap K T) (key : K) : Option (CHashMapElem K T) :=
  (m.m_chains (m.GetChain fns key)).find? fun elem => fns.EqFn elem.m_key key

/-- `Find` (CHashMap.h:238). -/
def Find (m : CHashMap K T) (key : K) : Option T := (m.Lookup fns key).bind (·.m_value)

/-- `Insert` (CHashMap.h:211). -/
def Insert (m : CHashMap K T) (key : K) (value : Option T) : Bool × CHashMap K T :=
  if (m.Find fns key).isSome then (false, m)
  else
    let chain := m.GetChain fns key
    (true, { m with
      m_chains := Function.update m.m_chains chain (m.m_chains chain ++ [⟨key, value⟩])
      m_size := (m.m_size + 1) % 2 ^ 32
      m_keys := m.m_keys ++ [some key] })

/-- `ReplaceValue` on the entry that `Lookup` finds. -/
def replaceFirst (key : K) (ptNew : Option T) :
    List (CHashMapElem K T) → List (CHashMapElem K T)
  | [] => []
  | elem :: rest =>
    if fns.EqFn elem.m_key key then ⟨elem.m_key, ptNew⟩ :: rest
    else elem :: replaceFirst key ptNew rest

/-- `Replace` (CHashMap.h:251). -/
def Replace (m : CHashMap K T) (key : K) (ptNew : Option T) : Bool × CHashMap K T :=
  if (m.Lookup fns key).isSome then
    let chain := m.GetChain fns key
    (true, { m with
      m_chains := Function.update m.m_chains chain
        (replaceFirst fns key ptNew (m.m_chains chain)) })
  else (false, m)

/-- The pointer to a key that is destroyed dangles. -/
def dangle (key : K) : List (Option K) → List (Option K)
  | [] => []
  | none :: rest => none :: dangle key rest
  | some k :: rest => if fns.EqFn k key then none :: rest else some k :: dangle key rest

/-- `Delete` (CHashMap.h:267): the entry is swapped with the last one of its chain and removed. -/
def Delete (m : CHashMap K T) (key : K) : Bool × CHashMap K T :=
  let chain := m.GetChain fns key
  match (m.m_chains chain).findIdx? fun elem => fns.EqFn elem.m_key key with
  | none => (false, m)
  | some ul =>
    (true, { m with
      m_chains := Function.update m.m_chains chain (Classes.swapRemove (m.m_chains chain) ul)
      m_keys := dangle fns key m.m_keys })

/-- `Size` (CHashMap.h:291). -/
def Size (m : CHashMap K T) : ℕ := m.m_size

end CHashMap

/-- `CHashMapIter`: the key it stands on, counted from 1. -/
structure CHashMapIter where
  m_key_idx : ℕ

namespace CHashMapIter

variable {K T : Type} (fns : HashKeys K)

/-- `Advance` (CHashMapIter.h:80). -/
def Advance (m_map : CHashMap K T) (it : CHashMapIter) : Option CHashMapIter :=
  if it.m_key_idx < m_map.m_keys.length then some ⟨it.m_key_idx + 1⟩ else none

/-- `Get` (CHashMapIter.h:56); the outer `none` is a look at a key that has been destroyed. -/
def Get (m_map : CHashMap K T) (it : CHashMapIter) : Option (Option (CHashMapElem K T)) :=
  (m_map.m_keys[it.m_key_idx - 1]?.join).map (m_map.Lookup fns)

/-- `Key` (CHashMapIter.h:93). -/
def Key (m_map : CHashMap K T) (it : CHashMapIter) : Option (Option K) :=
  (it.Get fns m_map).map fun elem => elem.map (·.m_key)

/-- `Value` (CHashMapIter.h:105). -/
def Value (m_map : CHashMap K T) (it : CHashMapIter) : Option (Option T) :=
  (it.Get fns m_map).map fun elem => elem.bind (·.m_value)

/-- What `while (Advance())` visits from here on: the key and the value of each step. -/
def visits (m_map : CHashMap K T) : ℕ → CHashMapIter → Option (List (Option K × Option T))
  | 0, _ => none
  | fuel + 1, it =>
    match it.Advance m_map with
    | none => some []
    | some it => do
      let key ← it.Key fns m_map
      let value ← it.Value fns m_map
      return (key, value) :: (← visits m_map fuel it)

end CHashMapIter

/-- A run of a fresh iterator over the map; `none` if it looks at a destroyed key. -/
def CHashMap.iterate {K T : Type} (fns : HashKeys K) (m : CHashMap K T) :
    Option (List (Option K × Option T)) :=
  CHashMapIter.visits fns m (m.m_keys.length + 1) ⟨0⟩

end BossOptimizer
