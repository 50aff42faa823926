import BossOptimizer.Operators.CteQueries
import BossOptimizer.Operators.UnionCollapse

/-!
# Filters of consumers on producers: `AddPredsToCTEProducers` (CExpressionPreprocessor.cpp:2014)

When all consumers of a common table expression have a filter, the disjunction of the filters goes
to the producer. Whether all have one is decided by counting: the filters found in the preprocessed
query against the consumers that the translator registered. A rewrite that copies a filtered
consumer makes it count twice, in the place of a consumer without a filter. Neither are volatile
functions seen that are arguments of another function. These are the only ways to go wrong.
-/

namespace BossOptimizer

open Query

variable {D G Op : Type}

/-! ## Producers -/

/-- `CCTEInfo::CCTEInfoEntry`, with the columns and the child of the producer. -/
structure CCTEInfoEntry (D Op : Type) where
  ulCTEId : ℕ
  pdrgpcr : List CColRef
  pexpr : Query D (CteOp Op)
  m_fUsed : Bool

/-- `CCTEInfo`: the producers in the order they were added, and how many consumers of each were
    registered in the main query (`none`) and in each producer. -/
structure CCTEInfo (D Op : Type) where
  m_phmulcteinfoentry : List (CCTEInfoEntry D Op)
  nodup : (m_phmulcteinfoentry.map (·.ulCTEId)).Nodup
  m_phmulprodconsmap : Option ℕ → ℕ → ℕ

namespace CCTEInfo

variable (pcteinfo : CCTEInfo D Op)

/-- `CCTEInfo::PexprCTEProducer` (CCTEInfo.cpp:355). -/
def PexprCTEProducer (ulCTEId : ℕ) : Option (CCTEInfoEntry D Op) :=
  pcteinfo.m_phmulcteinfoentry.find? (·.ulCTEId == ulCTEId)

variable {pcteinfo} in
theorem entry_unique {entry entry' : CCTEInfoEntry D Op}
    (h : entry ∈ pcteinfo.m_phmulcteinfoentry) (h' : entry' ∈ pcteinfo.m_phmulcteinfoentry)
    (hid : entry.ulCTEId = entry'.ulCTEId) : entry = entry' :=
  List.inj_on_of_nodup_map pcteinfo.nodup h h' hid

variable {pcteinfo} in
theorem pexprCTEProducer_eq_some {entry : CCTEInfoEntry D Op} {ulCTEId : ℕ} :
    pcteinfo.PexprCTEProducer ulCTEId = some entry ↔
      entry ∈ pcteinfo.m_phmulcteinfoentry ∧ entry.ulCTEId = ulCTEId := by
  unfold PexprCTEProducer
  refine ⟨fun h => ⟨List.mem_of_find?_eq_some h, by simpa using List.find?_some h⟩, ?_⟩
  rintro ⟨hmem, hid⟩
  cases hfind : pcteinfo.m_phmulcteinfoentry.find? (·.ulCTEId == ulCTEId) with
  | none => exact absurd hid (by simpa using List.find?_eq_none.1 hfind entry hmem)
  | some entry' =>
    have hid' : entry'.ulCTEId = ulCTEId := by simpa using List.find?_some hfind
    exact congrArg some (entry_unique (List.mem_of_find?_eq_some hfind) hmem
      (hid'.trans hid.symm))

/-- `CCTEInfo::UlConsumersInParent` (CCTEInfo.cpp:373). -/
def UlConsumersInParent (ulConsumerId : ℕ) (ulParentId : Option ℕ) : ℕ :=
  pcteinfo.m_phmulprodconsmap ulParentId ulConsumerId

/-- `CCTEInfo::UlConsumers` (CCTEInfo.cpp:404). -/
def UlConsumers (ulCTEId : ℕ) : ℕ :=
  pcteinfo.UlConsumersInParent ulCTEId none +
    (pcteinfo.m_phmulcteinfoentry.map fun entry =>
      if entry.m_fUsed then pcteinfo.UlConsumersInParent ulCTEId (some entry.ulCTEId) else 0).sum

/-- `CCTEInfo::ReplaceCTEProducer` (CCTEInfo.cpp:262). -/
def ReplaceCTEProducer (ulCTEId : ℕ) (pexpr : Query D (CteOp Op)) : CCTEInfo D Op where
  m_phmulcteinfoentry := pcteinfo.m_phmulcteinfoentry.map fun entry =>
    if entry.ulCTEId = ulCTEId then { entry with pexpr := pexpr } else entry
  nodup := by
    rw [List.map_map]
    refine (List.map_congr_left fun entry _ => ?_) ▸ pcteinfo.nodup
    dsimp only [Function.comp]
    split_ifs <;> rfl
  m_phmulprodconsmap := pcteinfo.m_phmulprodconsmap

end CCTEInfo

namespace Query

/-! ## The pass -/

/-- `CTEPredsMap`: the predicates in the order they were found, each with its CTE. -/
abbrev CTEPredsMap (D Op : Type) : Type := List (ℕ × Query D (CteOp Op))

def CTEPredsMap.Find (phm : CTEPredsMap D Op) (ulCTEId : ℕ) : List (Query D (CteOp Op)) :=
  (phm.filter (·.1 == ulCTEId)).map (·.2)

/-- `CUtils::PhmulcrMapping` (CUtils.cpp:3376). -/
def PhmulcrMapping (pdrgpcrFrom pdrgpcrTo : List CColRef) (colref : CColRef) : CColRef :=
  pdrgpcrTo.getD (pdrgpcrFrom.idxOf colref) colref

/-- The filter has no outer references and no subquery. -/
def FCollects (pdrgpcr : List CColRef) (pexprScalar : Query D (CteOp Op)) : Bool :=
  (UsedColumns pexprScalar).all (· ∈ pdrgpcr) && !DeriveHasSubquery pexprScalar

/-- The filter of a consumer, over the columns of the producer. -/
def collectFilter (pcteinfo : CCTEInfo D Op) (ulCTEId : ℕ) (pdrgpcr : List CColRef)
    (pexprScalar : Query D (CteOp Op)) : CTEPredsMap D Op :=
  if FCollects pdrgpcr pexprScalar then
    match pcteinfo.PexprCTEProducer ulCTEId with
    | some producer => [(ulCTEId, PexprCopyWithRemappedColumns
        (PhmulcrMapping pdrgpcr producer.pdrgpcr) pexprScalar)]
    | none => []
  else []

/-- What is done at a selection on a consumer. -/
def collectHere (pcteinfo : CCTEInfo D Op) :
    QueryOp D (CteOp Op) → List (Query D (CteOp Op)) → CTEPredsMap D Op
  | .other .select, [.node (.other (.cteConsumer ulCTEId pdrgpcr)) _, pexprScalar] =>
    collectFilter pcteinfo ulCTEId pdrgpcr pexprScalar
  | _, _ => []

mutual

/-- `CExpressionPreprocessor::CollectCTEPredicates` (CExpressionPreprocessor.cpp:1957). -/
def CollectCTEPredicates (pcteinfo : CCTEInfo D Op) : Query D (CteOp Op) → CTEPredsMap D Op
  | .node pop pdrgpexpr => collectHere pcteinfo pop pdrgpexpr ++ collectEach pcteinfo pdrgpexpr

def collectEach (pcteinfo : CCTEInfo D Op) : List (Query D (CteOp Op)) → CTEPredsMap D Op
  | [] => []
  | pexpr :: pdrgpexpr => CollectCTEPredicates pcteinfo pexpr ++ collectEach pcteinfo pdrgpexpr

end

variable {S : QuerySemantics D G Op} (sc : CteScalars S)

/-- All consumers seem to have a filter, and no filter is volatile. -/
def FPushes (pcteinfo : CCTEInfo D Op) (phm : CTEPredsMap D Op) (ulCTEId : ℕ) : Bool :=
  !(phm.Find ulCTEId).any sc.FContainsVolatileFunction &&
    decide (0 < pcteinfo.UlConsumers ulCTEId) &&
      (phm.Find ulCTEId).length == pcteinfo.UlConsumers ulCTEId

/-- `CUtils::PexprLogicalSelect`. -/
def PexprLogicalSelect (pexpr pexprPredicate : Query D (CteOp Op)) : Query D (CteOp Op) :=
  .node (.other .select) [pexpr, pexprPredicate]

/-- The step of `AddPredsToCTEProducers` for one CTE. -/
def addPreds (phm : CTEPredsMap D Op) (pcteinfo : CCTEInfo D Op) (ulCTEId : ℕ) : CCTEInfo D Op :=
  match pcteinfo.PexprCTEProducer ulCTEId with
  | none => pcteinfo
  | some producer =>
    if FPushes sc pcteinfo phm ulCTEId then
      pcteinfo.ReplaceCTEProducer ulCTEId
        (PexprLogicalSelect producer.pexpr (PexprDisjunction (phm.Find ulCTEId)))
    else pcteinfo

/-- `CExpressionPreprocessor::AddPredsToCTEProducers` (CExpressionPreprocessor.cpp:2014). -/
def AddPredsToCTEProducers (pexpr : Query D (CteOp Op)) (pcteinfo : CCTEInfo D Op) :
    CCTEInfo D Op :=
  let phm := CollectCTEPredicates pcteinfo pexpr
  (phm.map (·.1)).dedup.foldl (addPreds sc phm) pcteinfo

/-! ## Tuples of the common table expressions -/

/-- The rows of a producer. -/
def producerRows (S : QuerySemantics D G Op) (top : Env D G) (producer : CCTEInfoEntry D Op)
    (C : Contents D) : Option (List (Row D)) :=
  (eval (S.ctes C) producer.pexpr top).rows?

def producerTuples (S : QuerySemantics D G Op) (top : Env D G) (producer : CCTEInfoEntry D Op)
    (C : Contents D) : Option (List (List (Datum D))) :=
  (producerRows S top producer C).map fun rows => rows.map fun row => producer.pdrgpcr.map row

/-- The tuples of all common table expressions, each computed once and from the ones before. -/
def contents (S : QuerySemantics D G Op) (top : Env D G) (pcteinfo : CCTEInfo D Op) : Contents D :=
  Definitions.meaning (·.ulCTEId) (producerTuples S top) (fun _ => none)
    pcteinfo.m_phmulcteinfoentry

/-- The filter of the occurrence accepts the tuple. -/
def Accepts (S : QuerySemantics D G Op) (C : Contents D) (o : Occurrence D Op) (env : Env D G)
    (vals : List (Datum D)) : Bool :=
  match o.filter with
  | none => true
  | some p => S.isTrue (eval (S.ctes C) p { env with row := assign o.pdrgpcr vals env.row })

/-- The filtered output of a consumer. -/
def filteredOutput (S : QuerySemantics D G Op) (C : Contents D) (o : Occurrence D Op)
    (env : Env D G) : Option (List (Row D)) :=
  (eval (S.ctes C) o.expr env).rows?

attribute [local simp] CollectCTEPredicates collectEach in
theorem eval_expr (C : Contents D) (o : Occurrence D Op) (env : Env D G) :
    eval (S.ctes C) o.expr env = Result.ofOption ((C o.ulCTEId).map fun tuples =>
      .relation ((tuples.filter (Accepts S C o env)).map fun vals =>
        assign o.pdrgpcr vals env.row)) := by
  obtain ⟨id, cols, filter⟩ := o
  cases filter with
  | none =>
    rw [Occurrence.expr, eval_node]
    show Result.ofOption (C id >>= fun tuples => _) = _
    cases C id with
    | none => rfl
    | some tuples =>
      have hall : tuples.filter (Accepts S C ⟨id, cols, none⟩ env) = tuples :=
        List.filter_eq_self.2 fun _ _ => rfl
      rw [Option.map_some, hall]
      rfl
  | some p =>
    rw [Occurrence.expr, eval_node, List.map_cons, eval_node]
    show Result.ofOption ((Result.ofOption (C id >>= fun tuples => _)).rows? >>= fun rows => _) = _
    cases C id with
    | none => rfl
    | some tuples =>
      show Result.relation (List.filter _ (List.map _ _)) = _
      rw [List.filter_map]
      rfl

theorem filteredOutput_eq (C : Contents D) (o : Occurrence D Op) (env : Env D G) :
    filteredOutput S C o env = (C o.ulCTEId).map fun tuples =>
      (tuples.filter (Accepts S C o env)).map fun vals => assign o.pdrgpcr vals env.row := by
  rw [filteredOutput, eval_expr]
  cases C o.ulCTEId <;> rfl

/-! ## The filters found -/

/-- What an occurrence adds to the map. -/
def Occurrence.collect (pcteinfo : CCTEInfo D Op) (o : Occurrence D Op) : CTEPredsMap D Op :=
  match o.filter with
  | none => []
  | some p => collectFilter pcteinfo o.ulCTEId o.pdrgpcr p

theorem collectEach_eq_flatMap (pcteinfo : CCTEInfo D Op) (l : List (Query D (CteOp Op))) :
    collectEach pcteinfo l = l.flatMap (CollectCTEPredicates pcteinfo) := by
  induction l with
  | nil => rfl
  | cons e l ih => rw [collectEach, ih, List.flatMap_cons]

/-- The filters found are those of the occurrences. -/
theorem collectCTEPredicates_eq (pcteinfo : CCTEInfo D Op) (e : Query D (CteOp Op)) :
    CollectCTEPredicates pcteinfo e = (occurrences none e).flatMap (·.collect pcteinfo) := by
  have heach : ∀ l : List (Query D (CteOp Op)), (∀ e ∈ l, CollectCTEPredicates pcteinfo e =
      (occurrences none e).flatMap (·.collect pcteinfo)) →
      collectEach pcteinfo l = (l.flatMap (occurrences none)).flatMap (·.collect pcteinfo) := by
    intro l hl
    rw [collectEach_eq_flatMap, List.flatMap_assoc]
    exact List.flatMap_congr hl
  induction e using occurrence_induction with
  | consumer id cols l ih =>
    rw [CollectCTEPredicates, heach l ih, occurrences, occurrencesEach_eq_flatMap]
    rfl
  | selectConsumer id cols l pred ih ihpred =>
    rw [CollectCTEPredicates, collectEach, CollectCTEPredicates, heach l ih, collectEach, ihpred,
      collectEach, occurrences, occurrences, occurrencesEach_eq_flatMap, List.append_nil,
      List.cons_append, List.flatMap_cons, List.flatMap_append]
    rfl
  | select child pred hchild ih ihpred =>
    have hhere : collectHere pcteinfo (.other .select) [child, pred] = [] := by
      unfold collectHere
      split
      · rename_i heq
        exact absurd (List.cons.inj heq).1 (hchild _ _ _)
      · rfl
    rw [CollectCTEPredicates, hhere, collectEach, ih, collectEach, ihpred, collectEach,
      occurrences, List.flatMap_append, occurrences_of_not_consumer hchild (some pred),
      List.append_nil, List.nil_append]
  | node pop l hconsumer hselect ih =>
    have hhere : collectHere pcteinfo pop l = [] := by
      unfold collectHere
      split
      · exact absurd rfl (hselect _ _ rfl)
      · rfl
    rw [CollectCTEPredicates, hhere, heach l ih, occurrences_node hconsumer hselect,
      List.nil_append]

/-! ## The new producers -/

/-- A producer with the disjunction of the filters. -/
def withFilter (phm : CTEPredsMap D Op) (entry : CCTEInfoEntry D Op) : CCTEInfoEntry D Op :=
  { entry with pexpr := PexprLogicalSelect entry.pexpr (PexprDisjunction (phm.Find entry.ulCTEId)) }

/-- What a producer becomes. -/
def newProducer (pcteinfo : CCTEInfo D Op) (phm : CTEPredsMap D Op)
    (entry : CCTEInfoEntry D Op) : CCTEInfoEntry D Op :=
  if FPushes sc pcteinfo phm entry.ulCTEId then withFilter phm entry else entry

@[simp] theorem newProducer_ulCTEId (pcteinfo : CCTEInfo D Op) (phm : CTEPredsMap D Op)
    (entry : CCTEInfoEntry D Op) :
    (newProducer sc pcteinfo phm entry).ulCTEId = entry.ulCTEId := by
  unfold newProducer
  split_ifs <;> rfl

@[simp] theorem newProducer_pdrgpcr (pcteinfo : CCTEInfo D Op) (phm : CTEPredsMap D Op)
    (entry : CCTEInfoEntry D Op) :
    (newProducer sc pcteinfo phm entry).pdrgpcr = entry.pdrgpcr := by
  unfold newProducer
  split_ifs <;> rfl

@[simp] theorem newProducer_m_fUsed (pcteinfo : CCTEInfo D Op) (phm : CTEPredsMap D Op)
    (entry : CCTEInfoEntry D Op) :
    (newProducer sc pcteinfo phm entry).m_fUsed = entry.m_fUsed := by
  unfold newProducer
  split_ifs <;> rfl

theorem map_eq_self {α : Type} {f : α → α} {l : List α} (h : ∀ a ∈ l, f a = a) : l.map f = l :=
  (List.map_congr_left h).trans (List.map_id l)

/-- The step replaces the producer of its CTE. -/
theorem addPreds_entries (phm : CTEPredsMap D Op) (pcteinfo : CCTEInfo D Op) (id : ℕ) :
    (addPreds sc phm pcteinfo id).m_phmulcteinfoentry =
      pcteinfo.m_phmulcteinfoentry.map fun entry =>
        if entry.ulCTEId = id then newProducer sc pcteinfo phm entry else entry := by
  unfold addPreds
  cases hfind : pcteinfo.PexprCTEProducer id with
  | none =>
    refine (map_eq_self fun entry hentry => if_neg ?_).symm
    simpa using List.find?_eq_none.1 hfind entry hentry
  | some producer =>
    obtain ⟨hproducer, hid⟩ := CCTEInfo.pexprCTEProducer_eq_some.1 hfind
    have hown : ∀ entry ∈ pcteinfo.m_phmulcteinfoentry, entry.ulCTEId = id → entry = producer :=
      fun entry hentry h => CCTEInfo.entry_unique hentry hproducer (h.trans hid.symm)
    dsimp only
    split_ifs with hpushes
    · refine List.map_congr_left fun entry hentry => ?_
      split_ifs with h
      · rw [hown entry hentry h, newProducer, hid, if_pos hpushes, withFilter, hid]
      · rfl
    · refine (map_eq_self fun entry hentry => ?_).symm
      split_ifs with h
      · rw [newProducer, h, if_neg hpushes]
      · rfl

@[simp] theorem addPreds_m_phmulprodconsmap (phm : CTEPredsMap D Op) (pcteinfo : CCTEInfo D Op)
    (id : ℕ) :
    (addPreds sc phm pcteinfo id).m_phmulprodconsmap = pcteinfo.m_phmulprodconsmap := by
  unfold addPreds
  split
  · rfl
  · split_ifs <;> rfl

/-- The step changes no count, and so no other step. -/
theorem newProducer_addPreds (phm : CTEPredsMap D Op) (pcteinfo : CCTEInfo D Op) (id : ℕ) :
    newProducer sc (addPreds sc phm pcteinfo id) phm = newProducer sc pcteinfo phm := by
  have hcount : ∀ ulCTEId, (addPreds sc phm pcteinfo id).UlConsumers ulCTEId =
      pcteinfo.UlConsumers ulCTEId := by
    intro ulCTEId
    unfold CCTEInfo.UlConsumers CCTEInfo.UlConsumersInParent
    rw [addPreds_m_phmulprodconsmap, addPreds_entries, List.map_map]
    congr 2
    refine List.map_congr_left fun entry _ => ?_
    dsimp only [Function.comp]
    split_ifs <;> simp_all
  funext entry
  rw [newProducer, newProducer, FPushes, FPushes, hcount]

/-- **The pass gives the filter to the producers of the CTEs that it counts as filtered.** -/
theorem addPredsToCTEProducers_entries (main : Query D (CteOp Op)) (pcteinfo : CCTEInfo D Op) :
    (AddPredsToCTEProducers sc main pcteinfo).m_phmulcteinfoentry =
      pcteinfo.m_phmulcteinfoentry.map
        (newProducer sc pcteinfo (CollectCTEPredicates pcteinfo main)) := by
  have hsteps : ∀ phm (ids : List ℕ) (info : CCTEInfo D Op), ids.Nodup →
      (ids.foldl (addPreds sc phm) info).m_phmulcteinfoentry =
        info.m_phmulcteinfoentry.map fun entry =>
          if entry.ulCTEId ∈ ids then newProducer sc info phm entry else entry := by
    intro phm ids
    induction ids with
    | nil => exact fun info _ => (map_eq_self fun _ _ => if_neg List.not_mem_nil).symm
    | cons id ids ih =>
      intro info hnodup
      obtain ⟨hid, hids⟩ := List.nodup_cons.1 hnodup
      rw [List.foldl_cons, ih _ hids, newProducer_addPreds, addPreds_entries, List.map_map]
      refine List.map_congr_left fun entry _ => ?_
      by_cases h : entry.ulCTEId = id
      · simp [h, hid]
      · simp [h]
  rw [AddPredsToCTEProducers, hsteps _ _ _ (List.nodup_dedup _)]
  refine List.map_congr_left fun entry _ => ?_
  split_ifs with hmem
  · rfl
  · -- without a filter nothing is pushed
    rw [newProducer, if_neg]
    intro hpushes
    have hnone : (CollectCTEPredicates pcteinfo main).Find entry.ulCTEId = [] := by
      rw [CTEPredsMap.Find, List.map_eq_nil_iff, List.filter_eq_nil_iff]
      intro p hp hkey
      rw [List.mem_dedup] at hmem
      exact hmem (List.mem_map.2 ⟨p, hp, by simpa using hkey⟩)
    simp only [FPushes, hnone, Bool.and_eq_true, decide_eq_true_eq, List.length_nil,
      beq_iff_eq] at hpushes
    omega

/-! ## Well-formed queries -/

/-- The occurrences in the query and in the producers that are used. -/
def allOccurrences (main : Query D (CteOp Op)) (pcteinfo : CCTEInfo D Op) :
    List (Occurrence D Op) :=
  occurrences none main ++
    (pcteinfo.m_phmulcteinfoentry.filter (·.m_fUsed)).flatMap fun producer =>
      occurrences none producer.pexpr

/-- What the translator and the debug assertions see to: a consumer has different columns, as many
as its producer, filters are scalar expressions, and what is read is marked as used and was added
before. -/
structure WellFormedCtes (main : Query D (CteOp Op)) (pcteinfo : CCTEInfo D Op) : Prop where
  scalar : ∀ o ∈ occurrences none main, ∀ p, o.filter = some p → DeriveHasSubquery p = false →
    sc.Scalar p
  columns : ∀ o ∈ occurrences none main, ∀ producer ∈ pcteinfo.m_phmulcteinfoentry,
    producer.ulCTEId = o.ulCTEId → o.pdrgpcr.Nodup ∧ o.pdrgpcr.length = producer.pdrgpcr.length
  used : ∀ o ∈ occurrences none main, ∃ producer ∈ pcteinfo.m_phmulcteinfoentry,
    producer.ulCTEId = o.ulCTEId ∧ producer.m_fUsed = true
  earlier : ∀ as producer bs, pcteinfo.m_phmulcteinfoentry = as ++ producer :: bs →
    producer.m_fUsed = true → ∀ o ∈ occurrences none producer.pexpr, ∃ producer' ∈ as,
      producer'.ulCTEId = o.ulCTEId ∧ producer'.m_fUsed = true

variable {sc} {main : Query D (CteOp Op)} {pcteinfo : CCTEInfo D Op}

theorem mem_find {phm : CTEPredsMap D Op} {id : ℕ} {p : Query D (CteOp Op)} :
    p ∈ phm.Find id ↔ (id, p) ∈ phm := by
  simp [CTEPredsMap.Find]

theorem mem_collectFilter {id : ℕ} {cols : List CColRef} {p : Query D (CteOp Op)}
    {x : ℕ × Query D (CteOp Op)} : x ∈ collectFilter pcteinfo id cols p ↔
      FCollects cols p = true ∧ ∃ producer, pcteinfo.PexprCTEProducer id = some producer ∧
        x = (id, PexprCopyWithRemappedColumns (PhmulcrMapping cols producer.pdrgpcr) p) := by
  unfold collectFilter
  split_ifs with h
  · cases pcteinfo.PexprCTEProducer id <;> simp [h]
  · simp [h]

/-- Every filter found is one of an occurrence, over the columns of the producer. -/
theorem mem_find_collectCTEPredicates {id : ℕ} {p : Query D (CteOp Op)} :
    p ∈ (CollectCTEPredicates pcteinfo main).Find id ↔
      ∃ o ∈ occurrences none main, o.ulCTEId = id ∧ ∃ q, o.filter = some q ∧
        FCollects o.pdrgpcr q = true ∧ ∃ producer, pcteinfo.PexprCTEProducer id = some producer ∧
          p = PexprCopyWithRemappedColumns (PhmulcrMapping o.pdrgpcr producer.pdrgpcr) q := by
  rw [mem_find, collectCTEPredicates_eq, List.mem_flatMap]
  refine exists_congr fun o => and_congr_right fun _ => ?_
  obtain ⟨id', cols, filter⟩ := o
  cases filter with
  | none => simp [Occurrence.collect]
  | some q =>
    rw [Occurrence.collect, mem_collectFilter]
    constructor
    · rintro ⟨hcollects, producer, hproducer, heq⟩
      obtain ⟨rfl, rfl⟩ := Prod.mk.inj heq
      exact ⟨rfl, q, rfl, hcollects, producer, hproducer, rfl⟩
    · rintro ⟨rfl, q', hq, hcollects, producer, hproducer, rfl⟩
      obtain rfl := Option.some.inj hq
      exact ⟨hcollects, producer, hproducer, rfl⟩

/-- The filters found are scalar expressions. -/
theorem WellFormedCtes.scalar_find (hwf : WellFormedCtes sc main pcteinfo) (id : ℕ) :
    ∀ p ∈ (CollectCTEPredicates pcteinfo main).Find id, sc.Scalar p := by
  intro p hp
  obtain ⟨o, ho, -, q, hq, hcollects, producer, -, rfl⟩ := mem_find_collectCTEPredicates.1 hp
  rw [FCollects, Bool.and_eq_true, Bool.not_eq_true'] at hcollects
  exact (hwf.scalar o ho q hq hcollects.2).remap _

/-! ## Tuples before and after -/

/-- An occurrence keeps its result when its tuples and its filter do. -/
theorem sameResult_expr {C C' : Contents D} {o : Occurrence D Op}
    (htuples : C' o.ulCTEId = C o.ulCTEId)
    (hfilter : ∀ p, o.filter = some p → SameResult S C C' p) : SameResult S C C' o.expr := by
  obtain ⟨id, cols, filter⟩ := o
  have hconsumer : SameResult S C C' (Occurrence.expr ⟨id, cols, none⟩) := by
    funext env
    rw [Occurrence.expr, eval_node, eval_node]
    show Result.ofOption (C' id >>= fun tuples => _) = Result.ofOption (C id >>= fun tuples => _)
    rw [htuples]
  cases filter with
  | none => exact hconsumer
  | some p =>
    refine sameResult_node (by simp) fun e he => ?_
    rcases List.mem_pair.1 he with rfl | rfl
    · exact hconsumer
    · exact hfilter e rfl

/-- The rows of a producer depend on the tuples of the earlier ones. -/
theorem producerRows_congr {producer : CCTEInfoEntry D Op} {as : List (CCTEInfoEntry D Op)}
    (top : Env D G) (hearlier : ∀ o ∈ occurrences none producer.pexpr, ∃ producer' ∈ as,
      producer'.ulCTEId = o.ulCTEId) {C C' : Contents D}
    (h : ∀ producer' ∈ as, C producer'.ulCTEId = C' producer'.ulCTEId) :
    producerRows S top producer C = producerRows S top producer C' := by
  have hsame : SameResult S C C' producer.pexpr :=
    (allSame_of_occurrences (R := fun o => C' o.ulCTEId = C o.ulCTEId)
      (fun o => sameResult_expr) producer.pexpr fun o ho => by
        obtain ⟨producer', hproducer', hid⟩ := hearlier o ho
        rw [← hid]
        exact (h producer' hproducer').symm).1
  rw [producerRows, producerRows, hsame]

/-- The tuples of a used producer are what its rows say. -/
theorem WellFormedCtes.contents_eq (hwf : WellFormedCtes sc main pcteinfo) (top : Env D G)
    {as bs : List (CCTEInfoEntry D Op)} {producer : CCTEInfoEntry D Op}
    (hsplit : pcteinfo.m_phmulcteinfoentry = as ++ producer :: bs)
    (hused : producer.m_fUsed = true) :
    contents S top pcteinfo producer.ulCTEId =
      producerTuples S top producer (contents S top pcteinfo) := by
  have hnodup := pcteinfo.nodup
  rw [hsplit] at hnodup
  unfold contents
  rw [hsplit]
  refine Definitions.meaning_eq (fun entry : CCTEInfoEntry D Op => entry.ulCTEId)
    (producerTuples S top) _ hnodup fun C C' hC => ?_
  rw [producerTuples, producerTuples, producerRows_congr top (fun o ho => ?_) hC]
  obtain ⟨producer', hproducer', hid, -⟩ := hwf.earlier as producer bs hsplit hused o ho
  exact ⟨producer', hproducer', hid⟩

theorem scalar_pexprDisjunction {l : List (Query D (CteOp Op))} (h : ∀ p ∈ l, sc.Scalar p) :
    sc.Scalar (PexprDisjunction l) := by
  have hfinal : ∀ p ∈ l.filter (!FScalarConstBool false ·), sc.Scalar p :=
    fun p hp => h p (List.mem_filter.1 hp).1
  unfold PexprDisjunction
  split_ifs
  · exact .const true
  · split
    · exact .const false
    · rename_i hone
      exact hfinal _ (by rw [hone]; exact List.mem_singleton_self _)
    · exact .boolOp hfinal

/-- The new filter of a producer, if it gets one. -/
def keeps (S : QuerySemantics D G Op) (sc : CteScalars S) (main : Query D (CteOp Op))
    (pcteinfo : CCTEInfo D Op) (top : Env D G) (C : Contents D) (id : ℕ) (row : Row D) : Bool :=
  let phm := CollectCTEPredicates pcteinfo main
  !FPushes sc pcteinfo phm id ||
    S.isTrue (eval (S.ctes C) (PexprDisjunction (phm.Find id)) { top with row := row })

theorem WellFormedCtes.producerRows_newProducer (hwf : WellFormedCtes sc main pcteinfo)
    (top : Env D G) (C₀ C : Contents D) (producer : CCTEInfoEntry D Op) :
    producerRows S top (newProducer sc pcteinfo (CollectCTEPredicates pcteinfo main) producer) C =
      (producerRows S top producer C).map
        (List.filter (keeps S sc main pcteinfo top C₀ producer.ulCTEId)) := by
  unfold newProducer
  split_ifs with hpushes
  · have hdisjunction := (scalar_pexprDisjunction
      (hwf.scalar_find producer.ulCTEId)).sameResult C₀ C
    have hkeeps : keeps S sc main pcteinfo top C₀ producer.ulCTEId = fun row =>
        S.isTrue (eval (S.ctes C) (PexprDisjunction ((CollectCTEPredicates pcteinfo main).Find
          producer.ulCTEId)) { top with row := row }) := by
      funext row
      rw [hdisjunction, keeps, hpushes]
      rfl
    rw [hkeeps, producerRows, withFilter, PexprLogicalSelect, eval_node]
    show (Result.ofOption (producerRows S top producer C >>= fun rows => _)).rows? = _
    cases producerRows S top producer C <;> rfl
  · have hkeeps : keeps S sc main pcteinfo top C₀ producer.ulCTEId = fun _ => true := by
      funext row
      simp [keeps, hpushes]
    rw [hkeeps]
    cases producerRows S top producer C with
    | none => rfl
    | some rows => simp

/-- The tuples of a used producer after the pass. -/
theorem WellFormedCtes.contents_after (hwf : WellFormedCtes sc main pcteinfo) (top : Env D G)
    (C₀ : Contents D) {as bs : List (CCTEInfoEntry D Op)} {producer : CCTEInfoEntry D Op}
    (hsplit : pcteinfo.m_phmulcteinfoentry = as ++ producer :: bs)
    (hused : producer.m_fUsed = true) :
    let C' := contents S top (AddPredsToCTEProducers sc main pcteinfo)
    C' producer.ulCTEId = (producerRows S top producer C').map fun rows =>
      (rows.filter (keeps S sc main pcteinfo top C₀ producer.ulCTEId)).map fun row =>
        producer.pdrgpcr.map row := by
  intro C'
  have htuples : ∀ C, producerTuples S top
      (newProducer sc pcteinfo (CollectCTEPredicates pcteinfo main) producer) C =
        (producerRows S top producer C).map fun rows =>
          (rows.filter (keeps S sc main pcteinfo top C₀ producer.ulCTEId)).map fun row =>
            producer.pdrgpcr.map row := by
    intro C
    rw [producerTuples, hwf.producerRows_newProducer top C₀, newProducer_pdrgpcr, Option.map_map]
    rfl
  rw [← htuples C']
  have hentries := addPredsToCTEProducers_entries sc main pcteinfo
  rw [hsplit, List.map_append, List.map_cons] at hentries
  have hnodup := (AddPredsToCTEProducers sc main pcteinfo).nodup
  rw [hentries] at hnodup
  have hmeaning := Definitions.meaning_eq (fun entry : CCTEInfoEntry D Op => entry.ulCTEId)
    (producerTuples S top) (fun _ => none) hnodup fun C C'' hC => by
      rw [htuples, htuples, producerRows_congr top (fun o ho => ?_) fun producer' hproducer' => ?_]
      · exact as
      · obtain ⟨producer', hproducer', hid, -⟩ := hwf.earlier as producer bs hsplit hused o ho
        exact ⟨producer', hproducer', hid⟩
      · simpa using hC _ (List.mem_map_of_mem hproducer')
  rw [← hentries, newProducer_ulCTEId] at hmeaning
  exact hmeaning

/-! ## Filtered outputs -/

/-- The same multiset of rows, or none in both cases. -/
def SameRows (output output' : Option (List (Row D))) : Prop := Option.Rel List.Perm output output'

theorem SameRows.length_eq {output output' : Option (List (Row D))} (h : SameRows output output') :
    output.map List.length = output'.map List.length := by
  cases h with
  | none => rfl
  | some hperm => exact congrArg some hperm.length_eq

theorem filter_map_filter {α β : Type} {f : α → β} {acc : β → Bool} {keep : α → Bool} {l : List α}
    (h : ∀ a ∈ l, acc (f a) = true → keep a = true) :
    ((l.filter keep).map f).filter acc = (l.map f).filter acc := by
  have hall : (l.filter (acc ∘ f)).filter keep = l.filter (acc ∘ f) :=
    List.filter_eq_self.2 fun a ha => h a (List.mem_filter.1 ha).1 (List.mem_filter.1 ha).2
  rw [List.filter_map, List.filter_map, List.filter_comm, hall]

/-- A second filter in front changes nothing if and only if it lets through what the first does. -/
theorem filter_map_filter_perm_iff {α β γ : Type} {f : α → β} {g : β → γ} {acc : β → Bool}
    {keep : α → Bool} {l : List α} :
    ((((l.filter keep).map f).filter acc).map g).Perm (((l.map f).filter acc).map g) ↔
      ∀ a ∈ l, acc (f a) = true → keep a = true := by
  refine ⟨fun h a ha hacc => ?_, fun h => by rw [filter_map_filter h]⟩
  have hlength := h.length_eq
  rw [List.filter_map, List.filter_map, List.filter_comm] at hlength
  simp only [List.length_map] at hlength
  exact List.length_filter_eq_length_iff.1 hlength a (List.mem_filter.2 ⟨ha, hacc⟩)

/-- The rows of a CTE that the filter of an occurrence accepts are let through by a filter on the
    producer. -/
def LetsThrough (S : QuerySemantics D G Op) (C : Contents D) (o : Occurrence D Op)
    (producer : CCTEInfoEntry D Op) (rows : Option (List (Row D))) (keep : Row D → Bool) : Prop :=
  ∀ l, rows = some l → ∀ row ∈ l, ∀ env,
    Accepts S C o env (producer.pdrgpcr.map row) = true → keep row = true

theorem accepts_eq {C C' : Contents D} {o : Occurrence D Op}
    (hfilter : ∀ p, o.filter = some p → SameResult S C C' p) (env : Env D G) :
    Accepts S C' o env = Accepts S C o env := by
  obtain ⟨id, cols, filter⟩ := o
  cases filter with
  | none => rfl
  | some p =>
    funext vals
    rw [Accepts, Accepts]
    dsimp only
    rw [hfilter p rfl]

section Outputs

variable {C C' : Contents D} {o : Occurrence D Op} {producer : CCTEInfoEntry D Op}
  {rows : Option (List (Row D))} {keep : Row D → Bool}
  (hid : producer.ulCTEId = o.ulCTEId)
  (hold : C producer.ulCTEId = rows.map fun l => l.map fun row => producer.pdrgpcr.map row)
  (hnew : C' producer.ulCTEId = rows.map fun l =>
    (l.filter keep).map fun row => producer.pdrgpcr.map row)
  (hfilter : ∀ p, o.filter = some p → SameResult S C C' p)

include hid hold hnew hfilter

/-- **The filtered output of an occurrence is the same** if and only if the filter on the producer
lets through what it accepts. -/
theorem sameRows_iff_letsThrough :
    (∀ env, SameRows (filteredOutput S C' o env) (filteredOutput S C o env)) ↔
      LetsThrough S C o producer rows keep := by
  rw [hid] at hold hnew
  simp only [filteredOutput_eq, hold, hnew, accepts_eq hfilter, SameRows, LetsThrough]
  cases rows with
  | none => simp
  | some l =>
    simp only [Option.map_some, Option.rel_some_some, filter_map_filter_perm_iff, Option.some.injEq,
      forall_eq']
    exact ⟨fun h row hrow env => h env row hrow, fun h env row hrow => h row hrow env⟩

theorem sameResult_of_letsThrough (h : LetsThrough S C o producer rows keep) :
    SameResult S C C' o.expr := by
  rw [hid] at hold hnew
  funext env
  rw [eval_expr, eval_expr, hold, hnew, accepts_eq hfilter]
  cases rows with
  | none => rfl
  | some l =>
    simp only [Option.map_some, filter_map_filter fun row hrow => h l rfl row hrow env]

end Outputs

/-! ## Whole queries -/

section Whole

variable (sc main pcteinfo) (top : Env D G)

/-- A producer has its tuples before the pass, and those its new filter keeps after it. -/
def Filtered (producer : CCTEInfoEntry D Op) : Prop :=
  let C : Contents D := contents S top pcteinfo
  let C' : Contents D := contents S top (AddPredsToCTEProducers sc main pcteinfo)
  let rows := producerRows S top producer C
  C producer.ulCTEId = rows.map (fun l => l.map fun row => producer.pdrgpcr.map row) ∧
    C' producer.ulCTEId = rows.map fun l =>
      (l.filter (keeps S sc main pcteinfo top C producer.ulCTEId)).map fun row =>
        producer.pdrgpcr.map row

variable {sc main pcteinfo}

theorem WellFormedCtes.filtered (hwf : WellFormedCtes sc main pcteinfo)
    {as bs : List (CCTEInfoEntry D Op)} {producer : CCTEInfoEntry D Op}
    (hsplit : pcteinfo.m_phmulcteinfoentry = as ++ producer :: bs)
    (hused : producer.m_fUsed = true)
    (hsame : SameResult S (contents S top pcteinfo)
      (contents S top (AddPredsToCTEProducers sc main pcteinfo)) producer.pexpr) :
    Filtered sc main pcteinfo top producer := by
  refine ⟨hwf.contents_eq top hsplit hused, ?_⟩
  rw [hwf.contents_after top (contents S top pcteinfo) hsplit hused, producerRows, producerRows,
    hsame]

/-- **Every occurrence keeps its result** if the new filters let through what it accepts, or if
that follows from a property that all occurrences have. The induction is along the producers. -/
theorem WellFormedCtes.sameOccurrences (hwf : WellFormedCtes sc main pcteinfo)
    {K : Occurrence D Op → Prop}
    (hK : ∀ o, ∀ producer ∈ pcteinfo.m_phmulcteinfoentry, producer.ulCTEId = o.ulCTEId →
      Filtered sc main pcteinfo top producer → (∀ p, o.filter = some p →
        SameResult S (contents S top pcteinfo)
          (contents S top (AddPredsToCTEProducers sc main pcteinfo)) p) → K o →
      LetsThrough S (contents S top pcteinfo) o producer
        (producerRows S top producer (contents S top pcteinfo))
        (keeps S sc main pcteinfo top (contents S top pcteinfo) producer.ulCTEId))
    (hall : ∀ o ∈ allOccurrences main pcteinfo, K o) :
    ∀ o ∈ allOccurrences main pcteinfo,
      (∃ producer ∈ pcteinfo.m_phmulcteinfoentry, producer.ulCTEId = o.ulCTEId ∧
        Filtered sc main pcteinfo top producer) ∧
      SameOccurrence S (contents S top pcteinfo)
        (contents S top (AddPredsToCTEProducers sc main pcteinfo)) o := by
  let R : Occurrence D Op → Prop := fun o => (∃ producer ∈ pcteinfo.m_phmulcteinfoentry,
    producer.ulCTEId = o.ulCTEId ∧ Filtered sc main pcteinfo top producer) ∧ K o
  have hstep : ∀ o, R o → (∀ p, o.filter = some p → SameResult S (contents S top pcteinfo)
      (contents S top (AddPredsToCTEProducers sc main pcteinfo)) p) →
      SameResult S (contents S top pcteinfo)
        (contents S top (AddPredsToCTEProducers sc main pcteinfo)) o.expr := by
    rintro o ⟨⟨producer, hproducer, hid, hfiltered⟩, hk⟩ hfilter
    exact sameResult_of_letsThrough hid hfiltered.1 hfiltered.2 hfilter
      (hK o producer hproducer hid hfiltered hfilter hk)
  have hmain : ∀ o ∈ occurrences none main, K o := fun o ho =>
    hall o (List.mem_append_left _ ho)
  have hproducer : ∀ producer ∈ pcteinfo.m_phmulcteinfoentry, producer.m_fUsed = true →
      ∀ o ∈ occurrences none producer.pexpr, K o := fun producer hp hused o ho =>
    hall o (List.mem_append_right _ (List.mem_flatMap.2
      ⟨producer, List.mem_filter.2 ⟨hp, hused⟩, ho⟩))
  have hproducers : ∀ producer ∈ pcteinfo.m_phmulcteinfoentry, producer.m_fUsed = true →
      Filtered sc main pcteinfo top producer ∧ (∀ o ∈ occurrences none producer.pexpr, R o) := by
    refine Definitions.forall_mem_of_earlier fun as producer bs hsplit ih hused => ?_
    have hR : ∀ o ∈ occurrences none producer.pexpr, R o := by
      intro o ho
      obtain ⟨producer', hmem, hid, hused'⟩ := hwf.earlier as producer bs hsplit hused o ho
      refine ⟨⟨producer', ?_, hid, (ih producer' hmem hused').1⟩, hproducer producer ?_ hused o ho⟩
      · rw [hsplit]
        exact List.mem_append_left _ hmem
      · rw [hsplit]
        exact List.mem_append_right _ List.mem_cons_self
    exact ⟨hwf.filtered top hsplit hused (allSame_of_occurrences hstep _ hR).1, hR⟩
  have hRmain : ∀ o ∈ occurrences none main, R o := by
    intro o ho
    obtain ⟨producer, hmem, hid, hused⟩ := hwf.used o ho
    exact ⟨⟨producer, hmem, hid, (hproducers producer hmem hused).1⟩, hmain o ho⟩
  intro o ho
  rcases List.mem_append.1 ho with ho | ho
  · exact ⟨(hRmain o ho).1, (allSame_of_occurrences hstep main hRmain).2 o ho⟩
  · obtain ⟨producer, hmem, ho⟩ := List.mem_flatMap.1 ho
    obtain ⟨hmem, hused⟩ := List.mem_filter.1 hmem
    have hR := (hproducers producer hmem hused).2
    exact ⟨(hR o ho).1, (allSame_of_occurrences hstep _ hR).2 o ho⟩

variable (sc main pcteinfo)

/-- The filter of the occurrence was found, and has no volatile function. -/
def Counted (o : Occurrence D Op) : Prop :=
  ∃ p, o.filter = some p ∧ FCollects o.pdrgpcr p = true ∧ sc.Stable p

/-- The occurrences that no filter on the producer stands for: those without a filter that is
    found, those in other producers, and those whose filter is volatile. -/
def Overlooked (o : Occurrence D Op) : Prop :=
  (o ∈ occurrences none main ∧ ¬ Counted sc o) ∨
    ∃ producer ∈ pcteinfo.m_phmulcteinfoentry, producer.m_fUsed = true ∧
      o ∈ occurrences none producer.pexpr

/-- Whatever the filter of the occurrence accepts of its CTE is accepted by one of the filters
    found. -/
def CoveredByFilters (S : QuerySemantics D G Op) (o : Occurrence D Op) : Prop :=
  ∀ producer ∈ pcteinfo.m_phmulcteinfoentry, producer.ulCTEId = o.ulCTEId →
    ∀ rows, producerRows S top producer (contents S top pcteinfo) = some rows →
      ∀ row ∈ rows, ∀ env : Env D G,
        Accepts S (contents S top pcteinfo) o env (producer.pdrgpcr.map row) = true →
          ∃ p ∈ (CollectCTEPredicates pcteinfo main).Find o.ulCTEId,
            S.isTrue (eval (S.ctes (contents S top pcteinfo)) p { top with row := row }) = true

variable {sc main pcteinfo}

theorem mem_allOccurrences {o : Occurrence D Op} : o ∈ allOccurrences main pcteinfo ↔
    o ∈ occurrences none main ∨ ∃ producer ∈ pcteinfo.m_phmulcteinfoentry,
      producer.m_fUsed = true ∧ o ∈ occurrences none producer.pexpr := by
  simp [allOccurrences, and_assoc]

theorem WellFormedCtes.keeps_iff (hwf : WellFormedCtes sc main pcteinfo) (C : Contents D) (id : ℕ)
    (row : Row D) : keeps S sc main pcteinfo top C id row = true ↔
      (FPushes sc pcteinfo (CollectCTEPredicates pcteinfo main) id = true →
        ∃ p ∈ (CollectCTEPredicates pcteinfo main).Find id,
          S.isTrue (eval (S.ctes C) p { top with row := row }) = true) := by
  rw [keeps, Bool.or_eq_true, Bool.not_eq_true', CteScalars.isTrue_pexprDisjunction (hwf.scalar_find id),
    imp_iff_not_or, Bool.not_eq_true]

/-- What a counted occurrence accepts is accepted by its own filter on the producer. -/
theorem WellFormedCtes.covered_of_counted (hwf : WellFormedCtes sc main pcteinfo)
    {o : Occurrence D Op} (ho : o ∈ occurrences none main) (hcounted : Counted sc o) :
    CoveredByFilters main pcteinfo top S o := by
  obtain ⟨q, hq, hcollects, hstable⟩ := hcounted
  intro producer hproducer hid rows _ row _ env haccepts
  have hfound : pcteinfo.PexprCTEProducer o.ulCTEId = some producer :=
    CCTEInfo.pexprCTEProducer_eq_some.2 ⟨hproducer, hid⟩
  have hused : ∀ c ∈ UsedColumns q, c ∈ o.pdrgpcr := by
    rw [FCollects, Bool.and_eq_true, List.all_eq_true] at hcollects
    exact fun c hc => by simpa using hcollects.1 c hc
  have hscalar : sc.Scalar q := by
    rw [FCollects, Bool.and_eq_true, Bool.not_eq_true'] at hcollects
    exact hwf.scalar o ho q hq hcollects.2
  obtain ⟨-, hlength⟩ := hwf.columns o ho producer hproducer hid
  refine ⟨_, mem_find_collectCTEPredicates.2 ⟨o, ho, rfl, q, hq, hcollects, producer, hfound, rfl⟩,
    ?_⟩
  have heval := hscalar.eval_remap hstable (f := PhmulcrMapping o.pdrgpcr producer.pdrgpcr)
    { env with row := assign o.pdrgpcr (producer.pdrgpcr.map row) env.row }
    { top with row := row } (fun c hc => by
      have hidx : o.pdrgpcr.idxOf c < producer.pdrgpcr.length := by
        rw [← hlength]
        exact List.idxOf_lt_length_iff.2 (hused c hc)
      dsimp only
      rw [assign_of_mem (hused c hc), PhmulcrMapping]
      simp [hidx]) (contents S top pcteinfo)
  rw [heval]
  rw [Accepts, hq] at haccepts
  exact haccepts

/-- **The pass keeps the filtered output of every consumer** if and only if, for the CTEs that it
counts as filtered, the filters found also accept what the overlooked consumers do. -/
theorem addPredsToCTEProducers_sound_iff (hwf : WellFormedCtes sc main pcteinfo) :
    (∀ o ∈ allOccurrences main pcteinfo, ∀ env : Env D G,
      SameRows
        (filteredOutput S (contents S top (AddPredsToCTEProducers sc main pcteinfo)) o env)
        (filteredOutput S (contents S top pcteinfo) o env)) ↔
      ∀ o, Overlooked sc main pcteinfo o →
        FPushes sc pcteinfo (CollectCTEPredicates pcteinfo main) o.ulCTEId = true →
          CoveredByFilters main pcteinfo top S o := by
  have hthrough : ∀ o, (∀ producer ∈ pcteinfo.m_phmulcteinfoentry, producer.ulCTEId = o.ulCTEId →
      LetsThrough S (contents S top pcteinfo) o producer
        (producerRows S top producer (contents S top pcteinfo))
        (keeps S sc main pcteinfo top (contents S top pcteinfo) producer.ulCTEId)) ↔
      (FPushes sc pcteinfo (CollectCTEPredicates pcteinfo main) o.ulCTEId = true →
        CoveredByFilters main pcteinfo top S o) := by
    intro o
    constructor
    · intro h hpushes producer hproducer hid rows hrows row hrow env haccepts
      rw [← hid] at hpushes ⊢
      exact (hwf.keeps_iff top _ _ row).1
        (h producer hproducer hid rows hrows row hrow env haccepts) hpushes
    · intro h producer hproducer hid rows hrows row hrow env haccepts
      refine (hwf.keeps_iff top _ _ row).2 fun hpushes => ?_
      rw [hid] at hpushes ⊢
      exact h hpushes producer hproducer hid rows hrows row hrow env haccepts
  constructor
  · intro hsame o hoverlooked
    have ho : o ∈ allOccurrences main pcteinfo :=
      mem_allOccurrences.2 (hoverlooked.imp And.left id)
    obtain ⟨⟨producer', hproducer', hid', hfiltered⟩, hfilter, -⟩ := hwf.sameOccurrences top
      (fun o producer _ hid hfiltered hfilter => (sameRows_iff_letsThrough hid hfiltered.1
        hfiltered.2 hfilter).1) hsame o ho
    refine (hthrough o).1 fun producer hproducer hid => ?_
    obtain rfl := CCTEInfo.entry_unique hproducer hproducer' (hid.trans hid'.symm)
    exact (sameRows_iff_letsThrough hid hfiltered.1 hfiltered.2 hfilter).1 (hsame o ho)
  · intro hcovered o ho
    have hall : ∀ o ∈ allOccurrences main pcteinfo, ∀ producer ∈ pcteinfo.m_phmulcteinfoentry,
        producer.ulCTEId = o.ulCTEId → LetsThrough S (contents S top pcteinfo) o producer
          (producerRows S top producer (contents S top pcteinfo))
          (keeps S sc main pcteinfo top (contents S top pcteinfo) producer.ulCTEId) := by
      intro o ho
      refine (hthrough o).2 fun hpushes => ?_
      by_cases hoverlooked : Overlooked sc main pcteinfo o
      · exact hcovered o hoverlooked hpushes
      · rw [Overlooked, not_or, not_and, not_not] at hoverlooked
        have hmain := (mem_allOccurrences.1 ho).resolve_right hoverlooked.2
        exact hwf.covered_of_counted top hmain (hoverlooked.1 hmain)
    obtain ⟨⟨producer, hproducer, hid, hfiltered⟩, hfilter, -⟩ := hwf.sameOccurrences top
      (fun o producer hproducer hid _ _ hthrough => hthrough producer hproducer hid) hall o ho
    exact (sameRows_iff_letsThrough hid hfiltered.1 hfiltered.2 hfilter).2
      (hall o ho producer hproducer hid)

/-! ## Where the count is right -/

end Whole

/-! ## A filtered consumer that is copied

`with v as (select * from A) select x from (select b from t1 union all select c from t2) u(x) where
x in (select p from v where p > q) union all select p from v`: pushing the selection through the
union copies the consumer in it. Two consumers were registered, and two filters are found. -/

def cteCol (id : ℕ) : CColRef := ⟨id, true, true, true⟩

/-- The subquery that is copied. -/
def filteredV : Query ℕ (CteOp (UnionOp Unit)) :=
  .node (.other .select) [.node (.other (.cteConsumer 0 [cteCol 11, cteCol 12])) [],
    .node (.scalarCmp 521)
      [.node (.scalarIdent (cteCol 11)) [], .node (.scalarIdent (cteCol 12)) []]]

/-- A child of the union with the selection. -/
def branch (id : ℕ) : Query ℕ (CteOp (UnionOp Unit)) :=
  .node (.other .select) [.node (.logicalConstTableGet [cteCol id] [[(3 : ℕ)]]) [],
    .node (.scalarSubqueryAny 96 (cteCol 11)) [filteredV, .node (.scalarIdent (cteCol id)) []]]

def pushedThroughUnion : Query ℕ (CteOp (UnionOp Unit)) :=
  .node (.other (.other (.setOp .unionAll [cteCol 1] [[cteCol 2], [cteCol 3], [cteCol 21]])))
    [branch 2, branch 3, .node (.other (.cteConsumer 0 [cteCol 21, cteCol 22])) []]

/-- The table has the rows (3, 1) and (1, 3). -/
def infoV : CCTEInfo ℕ (UnionOp Unit) where
  m_phmulcteinfoentry := [⟨0, [colX, colY],
    .node (.logicalConstTableGet [colX, colY] [[(3 : ℕ), (1 : ℕ)], [(1 : ℕ), (3 : ℕ)]]) [], true⟩]
  nodup := by decide
  m_phmulprodconsmap parent id := if parent = none ∧ id = 0 then 2 else 0

/-- No other scalar operators. -/
def noScalars : CteScalars selections.unions where
  FScalar _ := false
  FVolatile _ := none
  value _ _ _ h := nomatch h
  stable _ _ _ _ _ h := nomatch h

def topV : Env ℕ Unit := ⟨fun _ => ⊥, ()⟩

/-- The occurrence without a filter. -/
def bareV : Occurrence ℕ (UnionOp Unit) := ⟨0, [cteCol 21, cteCol 22], none⟩

theorem wellFormedCtes_pushedThroughUnion :
    WellFormedCtes noScalars pushedThroughUnion infoV where
  scalar := by
    intro o ho p hp _
    have hfilters : ∀ o ∈ occurrences none pushedThroughUnion, o.filter = none ∨ o.filter =
        some (.node (.scalarCmp 521)
          [.node (.scalarIdent (cteCol 11)) [], .node (.scalarIdent (cteCol 12)) []]) := by
      simp [pushedThroughUnion, branch, filteredV, occurrences, occurrencesEach]
    rcases hfilters o ho with hnone | hsome
    · rw [hnone] at hp
      cases hp
    · rw [hsome] at hp
      obtain rfl := Option.some.inj hp
      exact .cmp (.ident _) (.ident _)
  columns := by decide
  used := by decide
  earlier := by
    intro as producer bs hsplit _ o ho
    have hproducer : producer ∈ infoV.m_phmulcteinfoentry := by
      rw [hsplit]
      exact List.mem_append_right _ List.mem_cons_self
    obtain rfl := List.mem_singleton.1 hproducer
    exact absurd ho List.not_mem_nil

/-- The consumer without a filter loses a row. -/
theorem not_addPredsToCTEProducers_sound :
    WellFormedCtes noScalars pushedThroughUnion infoV ∧
      ¬ ∀ o ∈ allOccurrences pushedThroughUnion infoV, ∀ env : Env ℕ Unit,
        SameRows
          (filteredOutput selections.unions (contents selections.unions topV
            (AddPredsToCTEProducers noScalars pushedThroughUnion infoV)) o env)
          (filteredOutput selections.unions (contents selections.unions topV infoV) o env) := by
  refine ⟨wellFormedCtes_pushedThroughUnion, fun hsame => ?_⟩
  have hbare := hsame bareV (by simp [allOccurrences, pushedThroughUnion, branch, filteredV,
    occurrences, occurrencesEach, bareV]) topV
  have hbefore : (filteredOutput selections.unions (contents selections.unions topV infoV)
      bareV topV).map List.length = some 2 := by decide
  have hafter : (filteredOutput selections.unions (contents selections.unions topV
      (AddPredsToCTEProducers noScalars pushedThroughUnion infoV)) bareV topV).map List.length =
        some 1 := by decide
  have hlength := hbare.length_eq
  rw [hbefore, hafter] at hlength
  cases hlength

theorem addPredsToCTEProducers_sound_iff_pushedThroughUnion :
    (∀ o ∈ allOccurrences pushedThroughUnion infoV, ∀ env : Env ℕ Unit,
      SameRows
        (filteredOutput selections.unions (contents selections.unions topV
          (AddPredsToCTEProducers noScalars pushedThroughUnion infoV)) o env)
        (filteredOutput selections.unions (contents selections.unions topV infoV) o env)) ↔
      ∀ o, Overlooked noScalars pushedThroughUnion infoV o →
        FPushes noScalars infoV (CollectCTEPredicates infoV pushedThroughUnion) o.ulCTEId = true →
          CoveredByFilters pushedThroughUnion infoV topV selections.unions o :=
  addPredsToCTEProducers_sound_iff topV wellFormedCtes_pushedThroughUnion

end Query

end BossOptimizer
