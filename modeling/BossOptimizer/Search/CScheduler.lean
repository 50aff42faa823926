import BossOptimizer.Lib.Counting

/-!
# Scheduler and job queues

`CScheduler` (CScheduler.cpp), `CJobQueue` (CJobQueue.cpp), `CJob` (CJob.cpp). Jobs and queues are
known by their address; an address that `CJobFactory` hands out again is a new number, since a
released job is reset before it is used again. `EJobState` is the state that the debug build keeps
in `m_ejs`. `history` is not in the source: it records, newest first, what was done to which job,
and no function reads it.

A job's own `FExecute` (the virtual function) can add children and ends with a flag. `startJob` is
what the scheduler does before it runs, `finishJob` what it does after.
-/

namespace BossOptimizer

/-- `CJob::EJobState` (CJob.h:107). -/
inductive EJobState where
  | EjsInit
  | EjsWaiting
  | EjsRunning
  | EjsSuspended
  | EjsCompleted
deriving DecidableEq, Repr

/-- `CJobQueue::EJobQueueResult`. -/
inductive EJobQueueResult where
  | EjqrMain
  | EjqrQueued
  | EjqrCompleted
deriving DecidableEq, Repr

/-- `CScheduler::EJobResult`. -/
inductive EJobResult where
  | EjrRunnable
  | EjrSuspended
  | EjrCompleted
deriving DecidableEq, Repr

abbrev JobId := ℕ
abbrev QueueId := ℕ

/-- `CJob`. -/
structure CJob where
  pjParent : Option JobId
  pjq : Option QueueId
  ulpRefs : ℕ
  ejs : EJobState
deriving DecidableEq, Repr

/-- `CJob::Reset` (CJob.cpp:32). -/
def CJob.Reset : CJob :=
  { pjParent := none, pjq := none, ulpRefs := 0, ejs := .EjsInit }

/-- `CJobQueue`. -/
structure CJobQueue where
  pj : Option JobId
  fCompleted : Bool
  listjQueued : List JobId
deriving DecidableEq, Repr

/-- What happened to a job. -/
inductive SchedEvent where
  | added (pj : JobId) (pjParent : Option JobId) (pjq : Option QueueId)
  | started (pj : JobId)
  /-- The job's own `FExecute` was called. -/
  | executed (pj : JobId)
  | queued (pj : JobId) (pjq : QueueId)
  | suspended (pj : JobId)
  /-- The job was rescheduled when its child `pjChild` completed. -/
  | resumed (pj pjChild : JobId)
  /-- The job was rescheduled right after its execution. -/
  | rerun (pj : JobId)
  | notified (pjq : QueueId)
  | completed (pj : JobId)
  | completedQueued (pj : JobId)
deriving DecidableEq, Repr

/-- `CScheduler`, with the jobs that `CJobFactory` has created and the job queues. -/
structure CScheduler where
  jobs : JobId → CJob
  ulJobs : ℕ
  jqs : QueueId → CJobQueue
  listjlWaiting : List JobId
  ulpTotal : ℕ
  ulpRunning : ℕ
  ulpQueued : ℕ
  history : List SchedEvent

namespace CScheduler

/-- `CScheduler::CScheduler`, with empty job queues. -/
def init : CScheduler where
  jobs := fun _ => CJob.Reset
  ulJobs := 0
  jqs := fun _ => ⟨none, false, []⟩
  listjlWaiting := []
  ulpTotal := 0
  ulpRunning := 0
  ulpQueued := 0
  history := []

def setJob (s : CScheduler) (pj : JobId) (f : CJob → CJob) : CScheduler :=
  { s with jobs := Function.update s.jobs pj (f (s.jobs pj)) }

def setQueue (s : CScheduler) (pjq : QueueId) (f : CJobQueue → CJobQueue) : CScheduler :=
  { s with jqs := Function.update s.jqs pjq (f (s.jqs pjq)) }

def record (s : CScheduler) (e : SchedEvent) : CScheduler :=
  { s with history := e :: s.history }

/-- `CJob::IncRefs` (CJob.h:165). -/
def IncRefs (s : CScheduler) (pj : JobId) : CScheduler :=
  s.setJob pj fun j => { j with ulpRefs := j.ulpRefs + 1 }

/-- `CJob::UlpDecrRefs` (CJob.h:172): the value before. -/
def UlpDecrRefs (s : CScheduler) (pj : JobId) : ℕ × CScheduler :=
  ((s.jobs pj).ulpRefs, s.setJob pj fun j => { j with ulpRefs := j.ulpRefs - 1 })

/-- `CJob::SetState`. -/
def SetState (s : CScheduler) (pj : JobId) (ejs : EJobState) : CScheduler :=
  s.setJob pj fun j => { j with ejs := ejs }

/-- `CScheduler::Schedule` (CScheduler.cpp:238). -/
def Schedule (s : CScheduler) (pj : JobId) : CScheduler :=
  let s := s.SetState pj .EjsWaiting
  { s with listjlWaiting := pj :: s.listjlWaiting, ulpQueued := s.ulpQueued + 1 }

/-- `CScheduler::Resume` (CScheduler.cpp:219). -/
def Resume (s : CScheduler) (pj : JobId) : CScheduler := s.Schedule pj

/-- `CJobFactory::PjCreate` (CJobFactory.cpp:82) and the `SetJobQueue` of a job's `Init`. -/
def PjCreate (s : CScheduler) (pjq : Option QueueId) : JobId × CScheduler :=
  (s.ulJobs, { s.setJob s.ulJobs (fun _ => { CJob.Reset with pjq := pjq }) with
    ulJobs := s.ulJobs + 1 })

/-- `CScheduler::Add` (CScheduler.cpp:190). -/
def Add (s : CScheduler) (pj : JobId) (pjParent : Option JobId) : CScheduler :=
  let s := match pjParent with
    | some pjParent => s.IncRefs pjParent
    | none => s
  let s := s.setJob pj fun j => { j with pjParent := pjParent }
  let s := { s with ulpTotal := s.ulpTotal + 1 }
  (s.record (.added pj pjParent (s.jobs pj).pjq)).Schedule pj

/-- A new job with queue `pjq` under `pjParent` (the jobs' `ScheduleJob`). -/
def ScheduleJob (s : CScheduler) (pjq : Option QueueId) (pjParent : Option JobId) : CScheduler :=
  (s.PjCreate pjq).2.Add (s.PjCreate pjq).1 pjParent

/-- `CJob::FResumeParent` (CJob.cpp:52). -/
def FResumeParent (s : CScheduler) (pjParent : JobId) : Bool × CScheduler :=
  let (ulpRefs, s) := s.UlpDecrRefs pjParent
  (ulpRefs == 1, s)

/-- `CScheduler::ResumeParent` (CScheduler.cpp:537). -/
def ResumeParent (s : CScheduler) (pj : JobId) : CScheduler :=
  match (s.jobs pj).pjParent with
  | none => s
  | some pjParent =>
    match s.FResumeParent pjParent with
    | (true, s) => (s.record (.resumed pjParent pj)).Resume pjParent
    | (false, s) => s

/-- `CScheduler::Complete` (CScheduler.cpp:466). -/
def Complete (s : CScheduler) (pj : JobId) : CScheduler :=
  let s := (s.SetState pj .EjsCompleted).record (.completed pj)
  let s := s.ResumeParent pj
  { s with ulpTotal := s.ulpTotal - 1 }

/-- `CScheduler::CompleteQueued` (CScheduler.cpp:498). -/
def CompleteQueued (s : CScheduler) (pj : JobId) : CScheduler :=
  let s := (s.SetState pj .EjsCompleted).record (.completedQueued pj)
  let s := s.ResumeParent pj
  { s with ulpTotal := s.ulpTotal - 1 }

/-- `CScheduler::Suspend` (CScheduler.cpp:440). -/
def Suspend (s : CScheduler) (pj : JobId) : CScheduler :=
  (s.SetState pj .EjsSuspended).record (.suspended pj)

/-- `CJobQueue::EjqrAdd` (CJobQueue.cpp:39). -/
def EjqrAdd (s : CScheduler) (pjq : QueueId) (pj : JobId) : EJobQueueResult × CScheduler :=
  if (s.jqs pjq).fCompleted then (.EjqrCompleted, s)
  else if (s.jqs pjq).pj = some pj then (.EjqrMain, s.IncRefs pj)
  else
    let s := s.setQueue pjq fun q => { q with listjQueued := q.listjQueued ++ [pj] }
    -- the first caller becomes the owner
    if (s.jqs pjq).listjQueued.head? = some pj then
      (.EjqrMain, (s.setQueue pjq fun q => { q with pj := some pj }).IncRefs pj)
    else (.EjqrQueued, s.IncRefs pj)

/-- The loop of `CJobQueue::NotifyCompleted`, over the jobs still in the list. -/
def notifyQueued (pjq : QueueId) : List JobId → CScheduler → CScheduler
  | [], s => s
  | pj :: rest, s =>
    let s := s.setQueue pjq fun q => { q with listjQueued := rest }
    match s.UlpDecrRefs pj with
    | (ulpRefs, s) =>
      -- check if job execution has completed
      if ulpRefs = 1 then notifyQueued pjq rest (s.CompleteQueued pj)
      else notifyQueued pjq rest s

/-- `CJobQueue::NotifyCompleted` (CJobQueue.cpp:91). -/
def NotifyCompleted (s : CScheduler) (pjq : QueueId) : CScheduler :=
  let s := (s.setQueue pjq fun q => { q with fCompleted := true }).record (.notified pjq)
  notifyQueued pjq (s.jqs pjq).listjQueued s

/-- A job's link leaves the waiting list. -/
def Dequeue (s : CScheduler) (pj : JobId) : CScheduler :=
  let s := { s with listjlWaiting := s.listjlWaiting.erase pj, ulpQueued := s.ulpQueued - 1 }
  (s.SetState pj .EjsRunning).record (.started pj)

/-- `CScheduler::PjRetrieve` (CScheduler.cpp:384): the head of the list. -/
def PjRetrieve (s : CScheduler) : Option (JobId × CScheduler) :=
  match s.listjlWaiting with
  | [] => none
  | pj :: _ => some (pj, s.Dequeue pj)

/-- `CScheduler::PreExecute` (CScheduler.cpp:275). -/
def PreExecute (s : CScheduler) (pj : JobId) : CScheduler :=
  { s with ulpRunning := s.ulpRunning + 1 }.IncRefs pj

/-- `CScheduler::FExecute` (CScheduler.cpp:298) up to the call of the job's own `FExecute`; a flag
if that is not called. -/
def FExecuteBegin (s : CScheduler) (pj : JobId) : Option Bool × CScheduler :=
  match (s.jobs pj).pjq with
  | none => (none, s.record (.executed pj))
  | some pjq =>
    match s.EjqrAdd pjq pj with
    | (.EjqrMain, s) => (none, s.record (.executed pj))
    | (.EjqrQueued, s) => (some false, s.record (.queued pj pjq))
    | (.EjqrCompleted, s) => (some true, s)

/-- `CScheduler::FExecute` after the job's own `FExecute` returned `fCompleted`. -/
def FExecuteEnd (s : CScheduler) (pj : JobId) (fCompleted : Bool) : CScheduler :=
  match (s.jobs pj).pjq with
  | none => s
  | some pjq => if fCompleted then s.NotifyCompleted pjq else (s.UlpDecrRefs pj).2

/-- `CScheduler::EjrPostExecute` (CScheduler.cpp:350). -/
def EjrPostExecute (s : CScheduler) (pj : JobId) (fCompleted : Bool) : EJobResult × CScheduler :=
  let (ulRefs, s) := s.UlpDecrRefs pj
  let s := { s with ulpRunning := s.ulpRunning - 1 }
  if fCompleted then (.EjrCompleted, s)
  else if ulRefs = 1 then (.EjrRunnable, s)
  else (.EjrSuspended, s)

/-- The `switch` of `CScheduler::ExecuteJobs` on the outcome of a job. -/
def ProcessJobResult (s : CScheduler) (pj : JobId) (fCompleted : Bool) : CScheduler :=
  match s.EjrPostExecute pj fCompleted with
  | (.EjrCompleted, s) => s.Complete pj
  | (.EjrRunnable, s) => (s.record (.rerun pj)).Resume pj
  | (.EjrSuspended, s) => s.Suspend pj

/-- One round of the loop of `ExecuteJobs` for `pj`, up to the call of the job's own `FExecute`, or
the whole round if that is not called. -/
def startJob (s : CScheduler) (pj : JobId) : CScheduler :=
  match ((s.Dequeue pj).PreExecute pj).FExecuteBegin pj with
  | (none, s) => s
  | (some fCompleted, s) => s.ProcessJobResult pj fCompleted

/-- The rest of the round once the job's own `FExecute` has returned `fCompleted`. -/
def finishJob (s : CScheduler) (pj : JobId) (fCompleted : Bool) : CScheduler :=
  (s.FExecuteEnd pj fCompleted).ProcessJobResult pj fCompleted

/-- `CScheduler::ExecuteJobs` (CScheduler.cpp:123). `FExecute` says what a job's own `FExecute`
does: the queues of the children that it adds and the flag that it returns. -/
def ExecuteJobs (FExecute : CScheduler → JobId → List (Option QueueId) × Bool) :
    ℕ → CScheduler → Option CScheduler
  | 0, _ => none
  | fuel + 1, s =>
    match s.PjRetrieve with
    | none => some s
    | some (pj, s) =>
      match (s.PreExecute pj).FExecuteBegin pj with
      | (some fCompleted, s) => ExecuteJobs FExecute fuel (s.ProcessJobResult pj fCompleted)
      | (none, s) =>
        let (children, fCompleted) := FExecute s pj
        let s := children.foldl (fun s pjq => s.ScheduleJob pjq (some pj)) s
        ExecuteJobs FExecute fuel (s.finishJob pj fCompleted)

/-- The children of `pj` that have not completed. -/
def unfinishedChildren (s : CScheduler) (pj : JobId) : ℕ :=
  tally s.ulJobs fun c =>
    decide ((s.jobs c).pjParent = some pj ∧ (s.jobs c).ejs ≠ .EjsCompleted)

/-- One step: a job is added by the engine or by a running job, a waiting job is picked, or a
running job's own `FExecute` returns. It returns true only when the job is finished. -/
inductive Step : CScheduler → CScheduler → Prop
  | add {s : CScheduler} (pjq : Option QueueId) (pjParent : Option JobId)
      (hparent : ∀ p, pjParent = some p → p < s.ulJobs ∧ (s.jobs p).ejs = .EjsRunning) :
      Step s (s.ScheduleJob pjq pjParent)
  | start {s : CScheduler} (pj : JobId) (hpj : pj ∈ s.listjlWaiting) : Step s (s.startJob pj)
  | finish {s : CScheduler} (pj : JobId) (fCompleted : Bool) (hpj : pj < s.ulJobs)
      (hrun : (s.jobs pj).ejs = .EjsRunning)
      (hdone : fCompleted = true → s.unfinishedChildren pj = 0) :
      Step s (s.finishJob pj fCompleted)

/-- The states that a run can reach. -/
inductive Reachable : CScheduler → Prop
  | init : Reachable init
  | step {s s' : CScheduler} (h : Reachable s) (hstep : Step s s') : Reachable s'

end CScheduler

end BossOptimizer
