import BossOptimizer.Common.CBitVector
import BossOptimizer.Lib.SortedList

/-!
# Bit sets: `CBitSet`, `CBitSetIter`

A set of `ULONG` positions as a list of links, each a bit vector with the position of its first
bit, ordered by that offset, and a cached number of elements (`CBitSet.cpp`, `CBitSetIter.cpp`).
A pointer to a link is its position in the list; `NULL` is `none`. The cached size wraps at
2^32 as `ULONG` does.
-/

namespace BossOptimizer

/-- The number of bits of a link's vector: `CBitSet::m_vector_size`, a positive `ULONG`. -/
structure VectorSize where
  bits : ℕ
  pos : 0 < bits
  lt : bits < 2 ^ 32

variable {vs : VectorSize}

/-- `CBitSet::ComputeOffset` (CBitSet.cpp:173). -/
def ComputeOffset (vs : VectorSize) (ul : ℕ) : ℕ := ul / vs.bits * vs.bits

theorem sub_ComputeOffset (pos : ℕ) : pos - ComputeOffset vs pos = pos % vs.bits :=
  Nat.sub_eq_of_eq_add ((Nat.div_add_mod' pos vs.bits).symm.trans (Nat.add_comm _ _))

theorem sub_ComputeOffset_lt (pos : ℕ) : pos - ComputeOffset vs pos < vs.bits :=
  sub_ComputeOffset pos ▸ Nat.mod_lt pos vs.pos

/-- `CBitSet::CBitSetLink` (CBitSet.h:43). -/
structure CBitSetLink (vs : VectorSize) where
  m_offset : ℕ
  m_vec : CBitVector vs.bits

/-- `CBitSet` (CBitSet.h:29): the list of links and the cached size. -/
structure CBitSet (vs : VectorSize) where
  m_bsllist : List (CBitSetLink vs)
  m_size : ℕ

/-- `CBitSet::FindLinkByOffset` (CBitSet.cpp:84): the last link with an offset of at most
`offset`, searched from the link `bsl`. -/
def FindLinkByOffset (links : List (CBitSetLink vs)) (offset : ℕ) (bsl : Option ℕ) : Option ℕ :=
  SortedList.seek CBitSetLink.m_offset links offset bsl

/-- The link `bsl`, when it is not `NULL` and starts at `offset`. -/
def linkAt (links : List (CBitSetLink vs)) (bsl : Option ℕ) (offset : ℕ) :
    Option (CBitSetLink vs) :=
  SortedList.atKey CBitSetLink.m_offset links bsl offset

namespace CBitSet

/-- `CBitSet::CBitSet` (CBitSet.cpp:188): the empty set. -/
def new (vs : VectorSize) : CBitSet vs := ⟨[], 0⟩

/-- `CBitSet::Size`. -/
def Size (s : CBitSet vs) : ℕ := s.m_size

/-- `CBitSet::RecomputeSize` (CBitSet.cpp:127), on the links of a set. -/
def RecomputeSize (links : List (CBitSetLink vs)) : CBitSet vs :=
  ⟨links, (links.map fun bsl => bsl.m_vec.CountSetBits).sum % 2 ^ 32⟩

/-- `CBitSet::Clear` (CBitSet.cpp:148): all links are released. -/
def Clear (_ : CBitSet vs) : CBitSet vs := RecomputeSize []

/-- `CBitSet::Get` (CBitSet.cpp:232). -/
def Get (s : CBitSet vs) (pos : ℕ) : Bool :=
  let offset := ComputeOffset vs pos
  match linkAt s.m_bsllist (FindLinkByOffset s.m_bsllist offset none) offset with
  | some bsl => bsl.m_vec.Get (pos - offset)
  | none => false

/-- The link with the bit of `pos` set. -/
def setIn (pos : ℕ) (bsl : CBitSetLink vs) : CBitSetLink vs :=
  { bsl with m_vec :=
      bsl.m_vec.ExchangeSet (pos - ComputeOffset vs pos) (sub_ComputeOffset_lt pos) }

/-- The link with the bit of `pos` cleared. -/
def clearIn (pos : ℕ) (bsl : CBitSetLink vs) : CBitSetLink vs :=
  { bsl with m_vec :=
      bsl.m_vec.ExchangeClear (pos - ComputeOffset vs pos) (sub_ComputeOffset_lt pos) }

/-- `CBitSet::ExchangeSet` (CBitSet.cpp:255): the previous value and the set with the bit. -/
def ExchangeSet (s : CBitSet vs) (pos : ℕ) : Bool × CBitSet vs :=
  let offset := ComputeOffset vs pos
  let bsl := FindLinkByOffset s.m_bsllist offset none
  match linkAt s.m_bsllist bsl offset with
  | some link =>
    let bit := link.m_vec.Get (pos - offset)
    (bit, ⟨SortedList.updateAt s.m_bsllist bsl (setIn pos),
      if bit then s.m_size else (s.m_size + 1) % 2 ^ 32⟩)
  | none =>
    -- a new link has no bit yet
    (false, ⟨SortedList.insertAfter s.m_bsllist bsl (setIn pos ⟨offset, .new vs.bits⟩),
      (s.m_size + 1) % 2 ^ 32⟩)

/-- `CBitSet::ExchangeClear` (CBitSet.cpp:299): a link that becomes empty is removed. -/
def ExchangeClear (s : CBitSet vs) (pos : ℕ) : Bool × CBitSet vs :=
  let offset := ComputeOffset vs pos
  let bsl := FindLinkByOffset s.m_bsllist offset none
  match linkAt s.m_bsllist bsl offset with
  | some link =>
    let bit := link.m_vec.Get (pos - offset)
    (bit, ⟨if (clearIn pos link).m_vec.IsEmpty then SortedList.removeAt s.m_bsllist bsl
        else SortedList.updateAt s.m_bsllist bsl (clearIn pos),
      if bit then (s.m_size + (2 ^ 32 - 1)) % 2 ^ 32 else s.m_size⟩)
  | none => (false, s)

/-- The links of the other set to copy (CBitSet.cpp:358-373). -/
def missingLinks (links : List (CBitSetLink vs)) : List (CBitSetLink vs) → Option ℕ →
    List (CBitSetLink vs)
  | [], _ => []
  | bsl_other :: rest, bsl =>
    let bsl := FindLinkByOffset links bsl_other.m_offset bsl
    if (linkAt links bsl bsl_other.m_offset).isNone then bsl_other :: missingLinks links rest bsl
    else missingLinks links rest bsl

/-- The insertion of the copied links (CBitSet.cpp:375-393). -/
def insertLinks : List (CBitSetLink vs) → List (CBitSetLink vs) → Option ℕ →
    List (CBitSetLink vs)
  | links, [], _ => links
  | links, pbslInsert :: rest, bsl =>
    let bsl := FindLinkByOffset links pbslInsert.m_offset bsl
    insertLinks (SortedList.insertAfter links bsl pbslInsert) rest bsl

/-- The union link by link (CBitSet.cpp:395-407). -/
def orLinks (others : List (CBitSetLink vs)) : List (CBitSetLink vs) → Option ℕ →
    List (CBitSetLink vs)
  | [], _ => []
  | bsl :: rest, bsl_other =>
    let bsl_other := FindLinkByOffset others bsl.m_offset bsl_other
    (match linkAt others bsl_other bsl.m_offset with
      | some other => { bsl with m_vec := bsl.m_vec.Or other.m_vec }
      | none => bsl) :: orLinks others rest bsl_other

/-- `CBitSet::Union` (CBitSet.cpp:347). -/
def Union (s pbsOther : CBitSet vs) : CBitSet vs :=
  let missing := missingLinks s.m_bsllist pbsOther.m_bsllist none
  RecomputeSize (orLinks pbsOther.m_bsllist (insertLinks s.m_bsllist missing none) none)

/-- `CBitSet::CBitSet` (CBitSet.cpp:204): the copy is a union with the empty set. -/
def copy (bs : CBitSet vs) : CBitSet vs := (new vs).Union bs

/-- The loop of `Intersection`: a link with a partner is kept, whatever remains of it. -/
def andLinks (others : List (CBitSetLink vs)) : List (CBitSetLink vs) → Option ℕ →
    List (CBitSetLink vs)
  | [], _ => []
  | bsl :: rest, bsl_other =>
    let bsl_other := FindLinkByOffset others bsl.m_offset bsl_other
    match linkAt others bsl_other bsl.m_offset with
    | some other => { bsl with m_vec := bsl.m_vec.And other.m_vec } :: andLinks others rest bsl_other
    | none => andLinks others rest bsl_other

/-- `CBitSet::Intersection` (CBitSet.cpp:420); without another set nothing happens. -/
def Intersection (s : CBitSet vs) (pbsOther : Option (CBitSet vs)) : CBitSet vs :=
  match pbsOther with
  | none => s
  | some other => RecomputeSize (andLinks other.m_bsllist s.m_bsllist none)

/-- A walk over the links of the other set that stops at the first link refused by `ok`, which
is told the link with the same offset. -/
def allLinks (ok : Option (CBitSetLink vs) → CBitSetLink vs → Bool) (links : List (CBitSetLink vs)) :
    List (CBitSetLink vs) → Option ℕ → Bool
  | [], _ => true
  | bsl_other :: rest, bsl =>
    let bsl := FindLinkByOffset links bsl_other.m_offset bsl
    ok (linkAt links bsl bsl_other.m_offset) bsl_other && allLinks ok links rest bsl

/-- `CBitSet::ContainsAll` (CBitSet.cpp:487). -/
def ContainsAll (s bs : CBitSet vs) : Bool :=
  if s.Size < bs.Size then false
  else allLinks (fun hit other => match hit with
    | some bsl => bsl.m_vec.ContainsAll other.m_vec
    | none => false) s.m_bsllist bs.m_bsllist none

/-- `CBitSet::IsDisjoint` (CBitSet.cpp:570). -/
def IsDisjoint (s bs : CBitSet vs) : Bool :=
  allLinks (fun hit other => match hit with
    | some bsl => bsl.m_vec.IsDisjoint other.m_vec
    | none => true) s.m_bsllist bs.m_bsllist none

/-- The loop of `Equals`. -/
def equalLinks : List (CBitSetLink vs) → List (CBitSetLink vs) → Bool
  | [], others => others.isEmpty
  | _ :: _, [] => false
  | bsl :: rest, bsl_other :: others =>
    bsl.m_offset == bsl_other.m_offset && bsl.m_vec.Equals bsl_other.m_vec &&
      equalLinks rest others

/-- `CBitSet::Equals` (CBitSet.cpp:525), of two objects. -/
def Equals (s bs : CBitSet vs) : Bool :=
  if s.Size ≠ bs.Size then false else equalLinks s.m_bsllist bs.m_bsllist

/-- `CBitSet::HashValue` (CBitSet.cpp:600). -/
def HashValue (s : CBitSet vs) : BitVec 32 :=
  s.m_bsllist.foldl (fun ulHash bsl => CombineHashes ulHash bsl.m_vec.HashValue) 0

end CBitSet

/-- `CBitSetIter`: `m_bsl` is the rest of the list from the current link on, `[]` is `NULL`. -/
structure CBitSetIter (vs : VectorSize) where
  m_cursor : ℕ
  m_bsl : List (CBitSetLink vs)
  m_active : Bool

namespace CBitSetIter

/-- `CBitSetIter::CBitSetIter` (CBitSetIter.cpp:28). -/
def new : CBitSetIter vs := ⟨2 ^ 32 - 1, [], true⟩

/-- The loop of `Advance` over the links. -/
def advanceLoop : List (CBitSetLink vs) → ℕ → CBitSetIter vs
  | [], m_cursor => ⟨m_cursor, [], false⟩
  | bsl :: rest, m_cursor =>
    let next := (m_cursor + 1) % 2 ^ 32
    match if next ≤ vs.bits then bsl.m_vec.GetNextSetBit next else none with
    | some pos => ⟨pos, bsl :: rest, true⟩
    | none => advanceLoop rest (2 ^ 32 - 1)

/-- `CBitSetIter::Advance` (CBitSetIter.cpp:42). -/
def Advance (m_bs : CBitSet vs) (it : CBitSetIter vs) : CBitSetIter vs :=
  advanceLoop (if it.m_bsl.isEmpty then m_bs.m_bsllist else it.m_bsl) it.m_cursor

/-- `CBitSetIter::Bit` (CBitSetIter.cpp:78). -/
def Bit (it : CBitSetIter vs) : ℕ :=
  match it.m_bsl with
  | bsl :: _ => (bsl.m_offset + it.m_cursor) % 2 ^ 32
  | [] => it.m_cursor

/-- The bits that `while (Advance())` visits, in order; `none` when the fuel runs out. -/
def drain (m_bs : CBitSet vs) : ℕ → CBitSetIter vs → Option (List ℕ)
  | 0, _ => none
  | fuel + 1, it =>
    let it' := it.Advance m_bs
    if it'.m_active then (drain m_bs fuel it').map (it'.Bit :: ·) else some []

end CBitSetIter

namespace CBitSet

/-- A loop with a fresh iterator over the set. -/
def iterate (s : CBitSet vs) : Option (List ℕ) :=
  CBitSetIter.drain s (s.m_bsllist.length * vs.bits + 1) .new

/-- `CBitSet::Difference` (CBitSet.cpp:462) with another set. -/
def Difference (s pbs : CBitSet vs) : Option (CBitSet vs) :=
  if s.IsDisjoint pbs then some s
  else pbs.iterate.map fun bits => bits.foldl (fun s pos => (s.ExchangeClear pos).2) s

end CBitSet

end BossOptimizer
