import BossOptimizer.Common.Hash
import BossOptimizer.Lib.Links
import Mathlib.Data.List.Sort

/-!
# Memo

`CMemo` (CMemo.cpp), `CGroup` (CGroup.cpp), `CGroupExpression` (CGroupExpression.cpp). A group is
known by its id, a group expression by its address. `m_pgroupDuplicate` of all groups is one set of
ascending links: `AddDuplicateGrp` only ever links a group to one with a greater id.

`m_sht` holds the chains of the buckets one after the other, each entry with the bucket it was put
in: the hash value of an expression changes when its children become duplicates.
-/

namespace BossOptimizer

/-- What the memo asks of operators (COperator.h), and the order that `PtrCmp` gives to groups. -/
structure MemoOperators (Op : Type) where
  Matches : Op → Op → Bool
  HashValue : Op → BitVec 32
  FInputOrderSensitive : Op → Bool
  address : ℕ → ℕ

/-- `CGroupExpression` (CGroupExpression.h:103). -/
structure CGroupExpression (Op : Type) where
  m_id : ℕ
  m_pgexprDuplicate : Option ℕ
  m_pop : Op
  m_pdrgpgroup : List ℕ
  m_pgroup : ℕ

/-- `CGroup` (CGroup.h:185). -/
structure CGroup where
  m_listGExprs : List ℕ
  m_listDupGExprs : List ℕ
  m_ulGExprs : ℕ

/-- `CMemo`, with the group expressions at addresses below `allocated`. -/
structure CMemo (Op : Type) where
  gexpr : ℕ → CGroupExpression Op
  allocated : ℕ
  group : ℕ → CGroup
  links : Links
  m_aul : ℕ
  m_pgroupRoot : Option ℕ
  m_sht : List (ℕ × ℕ)

/-- `GPOPT_MEMO_HT_BUCKETS` (CMemo.cpp:34). -/
def GPOPT_MEMO_HT_BUCKETS : ℕ := 50000

namespace CMemo

variable {Op : Type}

/-- The constructor (CMemo.cpp:42). What is at addresses not yet allocated is arbitrary. -/
def new (memory : ℕ → CGroupExpression Op) : CMemo Op :=
  { gexpr := memory, allocated := 0, group := fun _ => ⟨[], [], 0⟩, links := Links.empty,
    m_aul := 0, m_pgroupRoot := none, m_sht := [] }

/-! ## Groups -/

/-- `CGroup::PgroupDuplicate`. -/
abbrev PgroupDuplicate (m : CMemo Op) (g : ℕ) : Option ℕ := m.links.next g

/-- `CGroup::HashValue` (CGroup.cpp:563). -/
def GroupHashValue (m : CMemo Op) (g : ℕ) : BitVec 32 :=
  let id := match m.PgroupDuplicate g with
    | some dup => if (m.group g).m_ulGExprs = 0 then dup else g
    | none => g
  HashByteArray (bytesOf 4 (BitVec.ofNat 32 id))

/-- `CGroup::FDuplicateGroups`. -/
def FDuplicateGroups (m : CMemo Op) (pgroupFst pgroupSnd : ℕ) : Bool :=
  let pgroupFstDup := m.PgroupDuplicate pgroupFst
  let pgroupSndDup := m.PgroupDuplicate pgroupSnd
  pgroupFst == pgroupSnd || some pgroupFst == pgroupSndDup || some pgroupSnd == pgroupFstDup ||
    (pgroupFstDup.isSome && pgroupSndDup.isSome && pgroupFstDup == pgroupSndDup)

/-- `CGroup::FMatchGroups`, on arrays of one length. -/
def FMatchGroups (m : CMemo Op) (pdrgpgroupFst pdrgpgroupSnd : List ℕ) : Bool :=
  (pdrgpgroupFst.zip pdrgpgroupSnd).all fun p => p.1 == p.2 || m.FDuplicateGroups p.1 p.2

def setGroup (m : CMemo Op) (g : ℕ) (grp : CGroup) : CMemo Op :=
  { m with group := Function.update m.group g grp }

/-- `CGroup::Insert` (CGroup.cpp:585). -/
def GroupInsert (m : CMemo Op) (g pgexpr : ℕ) : CMemo Op :=
  m.setGroup g { m.group g with m_listGExprs := (m.group g).m_listGExprs ++ [pgexpr] }

/-- `CGroup::MoveDuplicateGExpr` (CGroup.cpp:621). -/
def MoveDuplicateGExpr (m : CMemo Op) (g pgexpr : ℕ) : CMemo Op :=
  m.setGroup g
    { m_listGExprs := (m.group g).m_listGExprs.erase pgexpr
      m_listDupGExprs := (m.group g).m_listDupGExprs ++ [pgexpr]
      m_ulGExprs := (m.group g).m_ulGExprs - 1 }

/-- `CGroupExpression::Init` and `Reset`: the expression goes to group `g` under the number that
the counter of the group stands at. -/
def TakeId (m : CMemo Op) (g pgexpr : ℕ) : CMemo Op :=
  { m with
    gexpr := Function.update m.gexpr pgexpr
      { m.gexpr pgexpr with m_pgroup := g, m_id := (m.group g).m_ulGExprs }
    group := Function.update m.group g
      { m.group g with m_ulGExprs := (m.group g).m_ulGExprs + 1 } }

/-- `CGroupProxy::Insert` (CGroupProxy.cpp:61). -/
def ProxyInsert (m : CMemo Op) (g pgexpr : ℕ) : CMemo Op :=
  (m.TakeId g pgexpr).GroupInsert g pgexpr

/-- `m_listGExprs.RemoveHead()` and `m_ulGExprs--`. -/
def RemoveHead (m : CMemo Op) (g : ℕ) : CMemo Op :=
  m.setGroup g { m.group g with
    m_listGExprs := (m.group g).m_listGExprs.tail
    m_ulGExprs := (m.group g).m_ulGExprs - 1 }

theorem min_lt_max_of_ne {g h : ℕ} (hne : g ≠ h) : min g h < max g h := by omega

/-- The loop of `AddDuplicateGrp` (CGroup.cpp:870), which swaps its two groups whenever they are out
of order. -/
def AddDuplicateGrp (d : Links) (pgroupSrc pgroupDest : ℕ) (hne : pgroupSrc ≠ pgroupDest) : Links :=
  match hsrc : d.next (min pgroupSrc pgroupDest) with
  | none => d.link (min pgroupSrc pgroupDest) (max pgroupSrc pgroupDest) (min_lt_max_of_ne hne)
  | some pgroupNext =>
    if hd : pgroupNext = max pgroupSrc pgroupDest then d
    else
      have _ascending := d.ascending _ _ hsrc
      AddDuplicateGrp d pgroupNext (max pgroupSrc pgroupDest) hd
termination_by (d.bound - pgroupSrc) + (d.bound - pgroupDest)

/-- `CGroup::ResolveDuplicateMaster` (CGroup.cpp:908). -/
def ResolveDuplicateMaster (d : Links) (g : ℕ) : Links :=
  match hg : d.next g with
  | none => d
  | some _ => d.link g (d.master g) (d.lt_master hg)

/-- `CMemo::MarkDuplicates` (CMemo.cpp:438). -/
def MarkDuplicates (m : CMemo Op) (pgroupFst pgroupSnd : ℕ) (hne : pgroupFst ≠ pgroupSnd) :
    CMemo Op :=
  let d := AddDuplicateGrp m.links pgroupFst pgroupSnd hne
  { m with links := ResolveDuplicateMaster (ResolveDuplicateMaster d pgroupFst) pgroupSnd }

/-- The loop of `MergeGroup`, over the expressions that `g` holds. -/
def moveGExprs (g pgroupTarget : ℕ) : List ℕ → CMemo Op → CMemo Op
  | [], m => m
  | pgexpr :: rest, m =>
    moveGExprs g pgroupTarget rest ((m.RemoveHead g).ProxyInsert pgroupTarget pgexpr)

/-- `CGroup::MergeGroup` (CGroup.cpp:937). -/
def MergeGroup (m : CMemo Op) (g : ℕ) : CMemo Op :=
  match m.PgroupDuplicate g with
  | none => m
  | some _ =>
    moveGExprs g (m.links.master g) (m.group g).m_listGExprs
      { m with links := ResolveDuplicateMaster m.links g }

/-! ## Hash table -/

variable (ops : MemoOperators Op)

/-- `m_pdrgpgroupSorted` (CGroupExpression.cpp:67). -/
def sortedGroups (pdrgpgroup : List ℕ) : List ℕ :=
  pdrgpgroup.mergeSort fun a b => ops.address a ≤ ops.address b

/-- `CGroupExpression::Matches` (CGroupExpression.cpp:890). -/
def Matches (m : CMemo Op) (pgexpr pgexprOther : CGroupExpression Op) : Bool :=
  if pgexpr.m_pdrgpgroup.length ≠ pgexprOther.m_pdrgpgroup.length then false
  else if !ops.Matches pgexpr.m_pop pgexprOther.m_pop then false
  else if pgexpr.m_pdrgpgroup.length = 0 then true
  else if pgexpr.m_pdrgpgroup.length = 1 || ops.FInputOrderSensitive pgexpr.m_pop then
    m.FMatchGroups pgexpr.m_pdrgpgroup pgexprOther.m_pdrgpgroup
  else
    m.FMatchGroups (sortedGroups ops pgexpr.m_pdrgpgroup)
      (sortedGroups ops pgexprOther.m_pdrgpgroup)

/-- `CGroupExpression::HashValue` (CGroupExpression.cpp:947). -/
def HashValue (m : CMemo Op) (pop : Op) (pdrgpgroup : List ℕ) : BitVec 32 :=
  pdrgpgroup.foldl (fun ulHash g => CombineHashes ulHash (m.GroupHashValue g)) (ops.HashValue pop)

/-- `CSyncHashtable::GetBucketIndex`. -/
def GetBucketIndex (m : CMemo Op) (pgexpr : CGroupExpression Op) : ℕ :=
  (m.HashValue ops pgexpr.m_pop pgexpr.m_pdrgpgroup).toNat % GPOPT_MEMO_HT_BUCKETS

/-- `ShtAcc::Find`: the first entry of the bucket of the key that equals it. `operator==`
(CGroupExpression.h:332) has the key match the entry. -/
def Find (m : CMemo Op) (key : CGroupExpression Op) : Option ℕ :=
  (m.m_sht.find? fun entry =>
    entry.1 == m.GetBucketIndex ops key && m.Matches ops key (m.gexpr entry.2)).map (·.2)

/-- `ShtAcc::Insert`: at the head of the chain of its bucket. -/
def ShtInsert (m : CMemo Op) (pgexpr : ℕ) : CMemo Op :=
  let entry := (m.GetBucketIndex ops (m.gexpr pgexpr), pgexpr)
  { m with m_sht := m.m_sht.orderedInsert (fun a b => a.1 ≤ b.1) entry }

/-! ## Insertion -/

/-- A new group expression object (CGroupExpression.cpp:46). -/
def allocate (m : CMemo Op) (pop : Op) (pdrgpgroup : List ℕ) : CMemo Op :=
  { m with
    gexpr := Function.update m.gexpr m.allocated ⟨0, none, pop, pdrgpgroup, 0⟩
    allocated := m.allocated + 1 }

/-- `CMemo::PgroupInsert` (CMemo.cpp:226) on a new group expression, which is released when an equal
one is found. A target of NULL asks for a new group. -/
def PgroupInsert (m : CMemo Op) (pgroupTarget : Option ℕ) (pop : Op) (pdrgpgroup : List ℕ) :
    CMemo Op :=
  match m.Find ops ⟨0, none, pop, pdrgpgroup, 0⟩ with
  | some _ => m
  | none =>
    let pgexpr := m.allocated
    let m := (m.allocate pop pdrgpgroup).ShtInsert ops pgexpr
    match pgroupTarget with
    | some g => m.ProxyInsert g pgexpr
    | none => { m.ProxyInsert m.m_aul pgexpr with m_aul := m.m_aul + 1 }

/-! ## Rehash and merge -/

/-- `CGroupExpression::SetDuplicate`. -/
def SetDuplicate (m : CMemo Op) (pgexpr pgexprFound : ℕ) : CMemo Op :=
  let gexpr := { m.gexpr pgexpr with m_pgexprDuplicate := some pgexprFound }
  { m with gexpr := Function.update m.gexpr pgexpr gexpr }

/-- What `FRehash` does for an expression that has a duplicate in the table (CMemo.cpp:520). The flag
tells whether duplicate groups were marked. -/
def moveDuplicate (m : CMemo Op) (pgexpr pgexprFound : ℕ) : CMemo Op × Bool :=
  let pgroup := (m.gexpr pgexpr).m_pgroup
  let pgroupFound := (m.gexpr pgexprFound).m_pgroup
  let m := (m.SetDuplicate pgexpr pgexprFound).MoveDuplicateGExpr pgroup pgexpr
  if h : pgroup = pgroupFound then (m, false)
  else
    let pgroupDup := m.PgroupDuplicate pgroup
    let pgroupFoundDup := m.PgroupDuplicate pgroupFound
    if (pgroupDup = none ∧ pgroupFoundDup = none) ∨ pgroupDup ≠ pgroupFoundDup then
      (m.MarkDuplicates pgroup pgroupFound h, true)
    else (m, false)

/-- The body of the second loop of `FRehash` (CMemo.cpp:500). -/
def rehashGExpr (m : CMemo Op) (pgexpr : ℕ) : CMemo Op × Bool :=
  match m.Find ops (m.gexpr pgexpr) with
  | none => (m.ShtInsert ops pgexpr, false)
  | some pgexprFound => m.moveDuplicate pgexpr pgexprFound

/-- The second loop of `FRehash`. -/
def rehashGExprs : List ℕ → CMemo Op → CMemo Op × Bool
  | [], m => (m, false)
  | pgexpr :: listGExprs, m =>
    let (m, fNew) := m.rehashGExpr ops pgexpr
    let (m, fNewRest) := rehashGExprs listGExprs m
    (m, fNew || fNewRest)

/-- The first loop of `FRehash` empties the table. -/
def dump (m : CMemo Op) : CMemo Op × List ℕ := ({ m with m_sht := [] }, m.m_sht.map (·.2))

/-- `CMemo::FRehash` (CMemo.cpp:471). -/
def FRehash (m : CMemo Op) : CMemo Op × Bool :=
  let (m, listGExprs) := m.dump
  rehashGExprs ops listGExprs m

/-- One pass of `GroupMerge` over `m_listGroups`, where the newest group is first. -/
def mergeGroups (m : CMemo Op) : CMemo Op :=
  (List.range m.m_aul).reverse.foldl MergeGroup m

/-- `m_pgroupRoot = m_pgroupRoot->PgroupDuplicate()` when the root is a duplicate. -/
def updateRoot (m : CMemo Op) : CMemo Op :=
  { m with m_pgroupRoot := m.m_pgroupRoot.map fun g => (m.PgroupDuplicate g).getD g }

/-- `CMemo::GroupMerge` (CMemo.cpp:561), for at most `fuel` rounds. -/
def GroupMerge (m : CMemo Op) : ℕ → Option (CMemo Op)
  | 0 => none
  | fuel + 1 =>
    let (m, fNewDupGroups) := m.mergeGroups.updateRoot.FRehash ops
    if fNewDupGroups then m.GroupMerge fuel else some m

end CMemo

end BossOptimizer
