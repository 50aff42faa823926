import Mathlib

/-!
# Tree maps: `CTreeMap`

The map that counts and enumerates the plans of a memo (`CTreeMap.h`). Objects (cost contexts)
become numbered nodes; a link makes one node an alternative for a child position of another.
Counts are kept per node once they are known. `CTreeNode *` is the node's number `m_ul`, 0 is the
global root.
-/

namespace BossOptimizer

/-- `gpos::ullong_max`. -/
def ullong_max : ℕ := 2 ^ 64 - 1

/-- How a recursion over the map can end early: the exception, a `NULL` pointer that is followed,
or the fuel of the model. -/
inductive TreeMapError where
  | overflow
  | null
  | fuel
  deriving DecidableEq

/-- `gpos::Add` (utils.cpp:159). -/
def gposAdd (first second : ℕ) : Except TreeMapError ℕ :=
  if first > ullong_max - second then .error .overflow else .ok (first + second)

/-- `gpos::Multiply` (utils.cpp:183). -/
def gposMultiply (first second : ℕ) : Except TreeMapError ℕ :=
  if 0 < second ∧ first > ullong_max / second then .error .overflow else .ok (first * second)

/-- `CTreeMap::CTreeNode` (CTreeMap.h:126), without its count. -/
structure CTreeNode (α : Type) where
  m_value : α
  m_pdrgdrgptn : List (List ℕ)
  m_ulIncoming : ℕ

/-- `CTreeMap`: node `i` of the list has the number `i + 1`. The global root carries no value, so
only its children are kept. `m_counts` holds `m_ullCount` of the nodes in state `EnsCounted`. -/
structure CTreeMap (α : Type) where
  nodes : List (CTreeNode α)
  m_plinkmap : List (α × ℕ × α)
  m_ptnRoot : List (List ℕ)
  m_counts : ℕ → Option ℕ

namespace CTreeMap

variable {α : Type} [DecidableEq α]

/-- `CTreeMap::CTreeMap`. -/
def new : CTreeMap α := ⟨[], [], [], fun _ => none⟩

/-- The number of the node of a value. -/
def idOf? (nodes : List (CTreeNode α)) (value : α) : Option ℕ :=
  (nodes.findIdx? fun ptn => ptn.m_value = value).map (· + 1)

/-- `CTreeMap::Ptn` (CTreeMap.h:439): the node of a value, created as necessary. -/
def Ptn (nodes : List (CTreeNode α)) (value : α) : ℕ × List (CTreeNode α) :=
  match idOf? nodes value with
  | some ul => (ul, nodes)
  | none => (nodes.length + 1, nodes ++ [⟨value, [], 0⟩])

/-- The children of a node with `ul` appended at position `ulPos`; skipped positions become empty
arrays (CTreeMap.h:247-264). -/
def addAt : List (List ℕ) → ℕ → ℕ → List (List ℕ)
  | [], 0, ul => [[ul]]
  | [], ulPos + 1, ul => [] :: addAt [] ulPos ul
  | pdrg :: rest, 0, ul => (pdrg ++ [ul]) :: rest
  | pdrg :: rest, ulPos + 1, ul => pdrg :: addAt rest ulPos ul

/-- `CTreeNode::Add` (CTreeMap.h:238) on the nodes with numbers `ulParent` and `ul`. -/
def Add (nodes : List (CTreeNode α)) (ulParent ulPos ul : ℕ) : List (CTreeNode α) :=
  (nodes.modify (ul - 1) fun ptn => { ptn with m_ulIncoming := ptn.m_ulIncoming + 1 }).modify
    (ulParent - 1) fun ptn => { ptn with m_pdrgdrgptn := addAt ptn.m_pdrgdrgptn ulPos ul }

/-- `CTreeMap::Insert` (CTreeMap.h:479): a link that exists is not added again. -/
def Insert (m : CTreeMap α) (ptParent : α) (ulPos : ℕ) (ptChild : α) : CTreeMap α :=
  if (ptParent, ulPos, ptChild) ∈ m.m_plinkmap then m
  else
    let parent := Ptn m.nodes ptParent
    let child := Ptn parent.2 ptChild
    { m with
      nodes := Add child.2 parent.1 ulPos child.1
      m_plinkmap := m.m_plinkmap ++ [(ptParent, ulPos, ptChild)] }

/-- The children arrays of a node. -/
def children (m : CTreeMap α) (ul : ℕ) : List (List ℕ) :=
  match ul with
  | 0 => m.m_ptnRoot
  | i + 1 => (m.nodes[i]?.map CTreeNode.m_pdrgdrgptn).getD []

/-- The counts that the recursion keeps: the memory of `UllCount`. -/
abbrev CountM (β : Type) := StateT (ℕ → Option ℕ) (Except TreeMapError) β

/-- The loop of `CTreeNode::UllCount(ulChild)` over the candidates (CTreeMap.h:168-181). -/
def sumCounts (count : ℕ → CountM ℕ) : List ℕ → ℕ → CountM ℕ
  | [], ull => pure ull
  | ptn :: rest, ull => do
    let ullCount ← count ptn
    sumCounts count rest (← liftM (gposAdd ull ullCount))

/-- The loop of `CTreeNode::UllCount` over the children (CTreeMap.h:291-303). -/
def multiplyCounts (count : ℕ → CountM ℕ) : List (List ℕ) → ℕ → CountM ℕ
  | [], ullCount => pure ullCount
  | pdrg :: rest, ullCount => do
    let ull ← sumCounts count pdrg 0
    if ull = 0 then pure 0
    else multiplyCounts count rest (← liftM (gposMultiply ullCount ull))

/-- `CTreeNode::UllCount` (CTreeMap.h:276): counted once per node. -/
def nodeCount (m : CTreeMap α) : ℕ → ℕ → CountM ℕ
  | 0, _ => throw .fuel
  | fuel + 1, ul => do
    match (← get) ul with
    | some ullCount => pure ullCount
    | none =>
      let ullCount ← multiplyCounts (nodeCount m fuel) (m.children ul) 1
      modify fun counts => Function.update counts ul (some ullCount)
      pure ullCount

/-- The candidate that a rank falls into, and its local rank (CTreeMap.h:192-207); without one
the last candidate. -/
def findCandidate (count : ℕ → CountM ℕ) : List ℕ → Option ℕ → ℕ → CountM (Option ℕ × ℕ)
  | [], ptn, ullRank => pure (ptn, ullRank)
  | ptn :: rest, _, ullRank => do
    let ullLocalCount ← count ptn
    if ullRank < ullLocalCount then pure (some ptn, ullRank)
    else findCandidate count rest (some ptn) (ullRank - ullLocalCount)

/-- The loop of `CTreeNode::PrUnrank` over the children (CTreeMap.h:344-354). -/
def unrankChildren {R : Type} (count : ℕ → CountM ℕ) (unrank : ℕ → ℕ → CountM R) :
    List (List ℕ) → ℕ → CountM (List R)
  | [], _ => pure []
  | pdrg :: rest, ullRankRem => do
    let ullLocalCount ← sumCounts count pdrg 0
    let candidate ← findCandidate count pdrg none (ullRankRem % ullLocalCount)
    match candidate with
    | (some ptn, ullRank) => do
      let pr ← unrank ptn ullRank
      return pr :: (← unrankChildren count unrank rest (ullRankRem / ullLocalCount))
    | (none, _) => throw .null

/-- `CTreeNode::PrUnrank` (CTreeMap.h:325) of a node with a value. -/
def nodeUnrank {R : Type} (m : CTreeMap α) (prfn : α → List R → R) : ℕ → ℕ → ℕ → CountM R
  | 0, _, _ => throw .fuel
  | fuel + 1, ul, ullRank => do
    let pdrg ← unrankChildren (nodeCount m fuel) (nodeUnrank m prfn fuel) (m.children ul) ullRank
    match m.nodes[ul - 1]? with
    | some ptn => pure (prfn ptn.m_value pdrg)
    | none => throw .null

/-- The nodes without an incoming link become candidates of the global root (CTreeMap.h:521-530). -/
def hookRoots (m : CTreeMap α) : CTreeMap α :=
  let roots := (List.range m.nodes.length).filter fun i =>
    (m.nodes[i]?.map CTreeNode.m_ulIncoming).getD 0 = 0
  { m with
    nodes := m.nodes.map fun ptn => if ptn.m_ulIncoming = 0 then { ptn with m_ulIncoming := 1 } else ptn
    m_ptnRoot := roots.foldl (fun root i => addAt root 0 (i + 1)) m.m_ptnRoot }

/-- `CTreeMap::UllCount` (CTreeMap.h:518). -/
def UllCount (m : CTreeMap α) (fuel : ℕ) : Except TreeMapError (ℕ × CTreeMap α) :=
  let m := m.hookRoots
  if m.nodes.length = 0 then .ok (0, m)
  else (nodeCount m fuel 0 m.m_counts).map fun r => (r.1, { m with m_counts := r.2 })

/-- `CTreeNode::PrUnrank` of the global root: just its 0-th child (CTreeMap.h:331-335). -/
def rootUnrank {R : Type} (m : CTreeMap α) (prfn : α → List R → R) (fuel ullRank : ℕ) :
    CountM R := do
  let candidate ← findCandidate (nodeCount m fuel) (m.m_ptnRoot.headD []) none ullRank
  match candidate with
  | (some ptn, ullRank) => nodeUnrank m prfn fuel ptn ullRank
  | (none, _) => throw .null

/-- `CTreeMap::PrUnrank` (CTreeMap.h:545). -/
def PrUnrank {R : Type} (m : CTreeMap α) (prfn : α → List R → R) (fuel ullRank : ℕ) :
    Except TreeMapError (R × CTreeMap α) :=
  (rootUnrank m prfn fuel ullRank m.m_counts).map fun r => (r.1, { m with m_counts := r.2 })

end CTreeMap

end BossOptimizer
