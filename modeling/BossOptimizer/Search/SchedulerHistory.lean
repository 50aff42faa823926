import BossOptimizer.Search.CScheduler

/-!
# The laws of a scheduler's history

What a history of the scheduler looks like, without its counters and queues: `Lawful` says when an
event can happen after the events before it. What happens to a job once, and only once, follows
from the laws. Histories are newest first.
-/

namespace BossOptimizer

/-- The job that an event moves to another state. -/
def SchedEvent.effect : SchedEvent → Option (JobId × EJobState)
  | .added pj _ _ => some (pj, .EjsWaiting)
  | .started pj => some (pj, .EjsRunning)
  | .suspended pj => some (pj, .EjsSuspended)
  | .resumed pj _ => some (pj, .EjsWaiting)
  | .rerun pj => some (pj, .EjsWaiting)
  | .completed pj => some (pj, .EjsCompleted)
  | .completedQueued pj => some (pj, .EjsCompleted)
  | .executed _ => none
  | .queued _ _ => none
  | .notified _ => none

/-- The state of `j` after an event, if it was `ejs` before. -/
def SchedEvent.apply (e : SchedEvent) (j : JobId) (ejs : EJobState) : EJobState :=
  match e.effect with
  | some (pj, new) => if pj = j then new else ejs
  | none => ejs

/-- The state of `j` after a history. -/
def status (h : List SchedEvent) (j : JobId) : EJobState :=
  h.foldr (fun e ejs => e.apply j ejs) .EjsInit

attribute [local simp] SchedEvent.effect in
@[simp] theorem status_nil (j : JobId) : status [] j = .EjsInit := rfl

@[simp] theorem status_cons (e : SchedEvent) (h : List SchedEvent) (j : JobId) :
    status (e :: h) j = e.apply j (status h j) := rfl

/-- `j` has completed. -/
def Done (h : List SchedEvent) (j : JobId) : Prop :=
  .completed j ∈ h ∨ .completedQueued j ∈ h

/-- An event that can happen after the history `h`. -/
inductive Allowed (h : List SchedEvent) : SchedEvent → Prop
  | added (j : JobId) (p : Option JobId) (q : Option QueueId) (hnew : status h j = .EjsInit) :
      Allowed h (.added j p q)
  | started (j : JobId) (hwait : status h j = .EjsWaiting) : Allowed h (.started j)
  /-- A job's own code runs as long as its queue is not completed, and never after it has waited. -/
  | executed (j : JobId) (hrun : status h j = .EjsRunning)
      (hopen : ∀ p q, .added j p (some q) ∈ h → .notified q ∉ h) (hnever : ∀ q, .queued j q ∉ h) :
      Allowed h (.executed j)
  | queued (j : JobId) (q : QueueId) (hrun : status h j = .EjsRunning) (hopen : .notified q ∉ h)
      (hidle : .executed j ∉ h) (honce : ∀ r, .queued j r ∉ h) : Allowed h (.queued j q)
  | suspended (j : JobId) (hrun : status h j = .EjsRunning) : Allowed h (.suspended j)
  /-- A parent is resumed right after its child `c` has completed, when no child is left. -/
  | resumed (j c : JobId) (hsusp : status h j = .EjsSuspended)
      (hlast : h.head? = some (.completed c) ∨ h.head? = some (.completedQueued c))
      (hchild : ∃ q, .added c (some j) q ∈ h)
      (hall : ∀ c' q, .added c' (some j) q ∈ h → Done h c') (hnever : ∀ q, .queued j q ∉ h) :
      Allowed h (.resumed j c)
  | rerun (j : JobId) (hrun : status h j = .EjsRunning) : Allowed h (.rerun j)
  | notified (q : QueueId) (honce : .notified q ∉ h) : Allowed h (.notified q)
  | completed (j : JobId) (hrun : status h j = .EjsRunning) (hnever : ∀ q, .queued j q ∉ h) :
      Allowed h (.completed j)
  | completedQueued (j : JobId) (q : QueueId) (hsusp : status h j = .EjsSuspended)
      (hqueued : .queued j q ∈ h) (hnotified : .notified q ∈ h) : Allowed h (.completedQueued j)

/-- Every event was allowed when it happened. -/
inductive Lawful : List SchedEvent → Prop
  | nil : Lawful []
  | cons {e : SchedEvent} {h : List SchedEvent} (hallow : Allowed h e) (hrest : Lawful h) :
      Lawful (e :: h)

/-! ## Counting the events of a job -/

/-- How often `j` was suspended, resumed by a child, queued, or completed. -/
def suspensions (h : List SchedEvent) (j : JobId) : ℕ := h.count (.suspended j)

def SchedEvent.isResumed (j : JobId) : SchedEvent → Bool
  | .resumed p _ => p == j
  | _ => false

def resumptions (h : List SchedEvent) (j : JobId) : ℕ := h.countP (SchedEvent.isResumed j)

def wakeUps (h : List SchedEvent) (j : JobId) : ℕ := h.count (.completedQueued j)

def completions (h : List SchedEvent) (j : JobId) : ℕ :=
  h.count (.completed j) + wakeUps h j

variable {h : List SchedEvent} {j : JobId} {q : QueueId}

/-- **Each suspension of a job ends once**: it is resumed by a child, or completed with its queue. -/
theorem Lawful.suspensions_eq (hl : Lawful h) (j : JobId) :
    suspensions h j =
      resumptions h j + wakeUps h j + (if status h j = .EjsSuspended then 1 else 0) := by
  induction hl with
  | nil => rfl
  | cons hallow _ ih =>
    unfold suspensions resumptions wakeUps at ih ⊢
    cases hallow with
    | executed k | queued k r | notified r =>
      rw [status_cons, SchedEvent.apply, SchedEvent.effect]
      simpa [SchedEvent.isResumed] using ih
    | added k p r hnew | started k hnew | suspended k hnew | resumed k c hnew | rerun k hnew
    | completed k hnew | completedQueued k r hnew =>
      by_cases hk : k = j
      · subst hk
        simp [hnew, SchedEvent.apply, SchedEvent.effect, SchedEvent.isResumed] at ih ⊢
        omega
      · simp [hk, SchedEvent.apply, SchedEvent.effect, SchedEvent.isResumed] at ih ⊢
        omega

/-- **A job completes once.** -/
theorem Lawful.completions_eq (hl : Lawful h) (j : JobId) :
    completions h j = if status h j = .EjsCompleted then 1 else 0 := by
  induction hl with
  | nil => rfl
  | cons hallow _ ih =>
    unfold completions wakeUps at ih ⊢
    cases hallow with
    | executed k | queued k r | notified r =>
      rw [status_cons, SchedEvent.apply, SchedEvent.effect]
      simpa using ih
    | added k p r hnew | started k hnew | suspended k hnew | resumed k c hnew | rerun k hnew
    | completed k hnew | completedQueued k r hnew =>
      by_cases hk : k = j
      · subst hk
        simp [hnew, SchedEvent.apply, SchedEvent.effect] at ih ⊢
        omega
      · simp [hk, SchedEvent.apply, SchedEvent.effect] at ih ⊢
        omega

/-! ## The order of the events -/

/-- Every event of a lawful history was allowed after those before it. -/
theorem Lawful.allowed {post pre : List SchedEvent} {e : SchedEvent}
    (hl : Lawful (post ++ e :: pre)) : Allowed pre e := by
  induction post with
  | nil =>
    cases hl with
    | cons hallow _ => exact hallow
  | cons _ post ih =>
    cases hl with
    | cons _ hrest => exact ih hrest

theorem status_ne_init_cons {e : SchedEvent} (hne : status h j ≠ .EjsInit) :
    status (e :: h) j ≠ .EjsInit := by
  rw [status_cons, SchedEvent.apply]
  cases e <;> simp only [SchedEvent.effect] <;> first | exact hne | (split <;> simp [hne])

theorem Lawful.executed_status (hl : Lawful h) (hin : .executed j ∈ h) : status h j ≠ .EjsInit := by
  induction hl with
  | nil => simp at hin
  | @cons e h hallow hrest ih =>
    rcases List.mem_cons.mp hin with rfl | hin
    · cases hallow with
      | executed _ hrun => simp [SchedEvent.apply, SchedEvent.effect, hrun]
    · exact status_ne_init_cons (ih hin)

/-- **A job that has waited for its queue never runs its own code.** -/
theorem Lawful.queued_not_executed (hl : Lawful h) (hin : .queued j q ∈ h) : .executed j ∉ h := by
  induction hl with
  | nil => simp
  | @cons e h hallow hrest ih =>
    intro hex
    rcases List.mem_cons.mp hin with rfl | hin'
    · cases hallow with
      | queued _ _ _ _ hidle => exact hidle (by simpa using hex)
    · rcases List.mem_cons.mp hex with rfl | hex'
      · cases hallow with
        | executed _ _ _ hnever => exact hnever q hin'
      · exact ih hin' hex'

theorem Lawful.done_status (hl : Lawful h) (hdone : Done h j) : status h j = .EjsCompleted := by
  have hcount := hl.completions_eq j
  have hpos : 0 < completions h j := by
    unfold completions wakeUps
    rcases hdone with hin | hin
    · have := List.count_pos_iff.mpr hin
      omega
    · have := List.count_pos_iff.mpr hin
      omega
  by_contra hne
  rw [if_neg hne] at hcount
  omega

/-- A job that has waited for its queue completes with the queue only. -/
theorem Lawful.queued_not_completed (hl : Lawful h) (hin : .queued j q ∈ h) : .completed j ∉ h := by
  induction hl with
  | nil => simp
  | @cons e h hallow hrest ih =>
    intro hc
    rcases List.mem_cons.mp hin with rfl | hin'
    · cases hallow with
      | queued _ _ hrun =>
        have hdone := hrest.done_status (.inl (by simpa using hc))
        rw [hrun] at hdone
        cases hdone
    · rcases List.mem_cons.mp hc with rfl | hc'
      · cases hallow with
        | completed _ _ hnever => exact hnever q hin'
      · exact ih hin' hc'

/-- **No job of a queue runs its own code after the queue is completed.** -/
theorem Lawful.not_executed_after {post pre : List SchedEvent} {p : Option JobId}
    (hl : Lawful (post ++ .notified q :: pre))
    (hadded : .added j p (some q) ∈ post ++ .notified q :: pre) : .executed j ∉ post := by
  induction post with
  | nil => simp
  | cons e post ih =>
    intro hex
    cases hl with
    | cons hallow hrest =>
      rcases List.mem_cons.mp hadded with heq | hadded'
      · subst heq
        cases hallow with
        | added _ _ _ hnew =>
          have hex' : .executed j ∈ post ++ .notified q :: pre := by
            simpa using Or.inl (by simpa using hex)
          exact hrest.executed_status hex' hnew
      · rcases List.mem_cons.mp hex with heq | hex'
        · subst heq
          cases hallow with
          | executed _ _ hopen _ => exact hopen p q hadded' (by simp)
        · exact ih hrest hadded' hex'

/-- A job waits for its queue once. -/
theorem Lawful.queued_once (hl : Lawful h) : h.count (.queued j q) ≤ 1 := by
  induction hl with
  | nil => simp
  | @cons e h hallow hrest ih =>
    by_cases he : e = .queued j q
    · subst he
      cases hallow with
      | queued _ _ _ _ _ honce => simp [List.count_eq_zero.mpr (honce q)]
    · simpa [List.count_cons, he] using ih

theorem done_of_status (hs : status h j = .EjsCompleted) : Done h j := by
  induction h with
  | nil => simp at hs
  | cons e h ih =>
    have hmono : Done h j → Done (e :: h) j := Or.imp (List.mem_cons_of_mem e) (List.mem_cons_of_mem e)
    rw [status_cons, SchedEvent.apply] at hs
    cases e with
    | completed k =>
      by_cases hk : k = j
      · exact .inl (by simp [hk])
      · exact hmono (ih (by simpa [SchedEvent.effect, hk] using hs))
    | completedQueued k =>
      by_cases hk : k = j
      · exact .inr (by simp [hk])
      · exact hmono (ih (by simpa [SchedEvent.effect, hk] using hs))
    | executed k | queued k r | notified r => exact hmono (ih (by simpa [SchedEvent.effect] using hs))
    | added k p r | started k | suspended k | resumed k c | rerun k =>
      by_cases hk : k = j
      · simp [SchedEvent.effect, hk] at hs
      · exact hmono (ih (by simpa [SchedEvent.effect, hk] using hs))

end BossOptimizer
