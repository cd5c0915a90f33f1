import KCore.Lib.Calendar

/-!
# Scheduled jobs (`white_rabbit.py`)

The four methods that schedule a job compose its id, where none is given, from the
function's name and part of the timing. `Job` is what APScheduler keeps of a job; it
refuses an id that is in use (`addJob`).
-/

namespace KCore.WhiteRabbit

open Text Calendar

/-- What is passed as a job; `name` is its `__name__`, `none` where it has none. -/
structure Function where
  callable : Bool
  name : Option Str
  deriving DecidableEq

/-- The arguments of `timedelta`. -/
structure Delay where
  days : ℕ
  hours : ℕ
  minutes : ℕ
  seconds : ℕ
  milliseconds : ℕ
  microseconds : ℕ

/-- The fields of a cron job. -/
structure CronFields where
  year : Option Str
  month : Option Str
  day : Option Str
  week : Option Str
  dayOfWeek : Option Str
  hour : Option Str
  minute : Option Str
  second : Option Str
  deriving DecidableEq

inductive Trigger
  | date (runDate : ℕ)
  | interval (startDate endDate : Option ℕ) (days hours minutes seconds : ℕ)
  | cron (startDate endDate : Option ℕ) (fields : CronFields)
  deriving DecidableEq

/-- What the function is called with. -/
inductive Kwargs (K : Type)
  | given (kwargs : K)
  | chat (content : Str)
  deriving DecidableEq

structure Job (K : Type) where
  id : Str
  function : Function
  trigger : Trigger
  kwargs : Kwargs K
  paused : Bool
  deriving DecidableEq

variable {K : Type}

def Delay.total (d : Delay) : ℕ :=
  ((((d.days * 24 + d.hours) * 60 + d.minutes) * 60 + d.seconds) * 1000 + d.milliseconds) * 1000 + d.microseconds

/-- The end of the year 9999. -/
def maxInstant : ℕ := 3652059 * 86400 * Calendar.second

/-- `datetime.today() + timedelta(…)`; `none` is an `OverflowError`. -/
def schedule (today : ℕ) (delay : Delay) : Option ℕ :=
  if today + delay.total < maxInstant then some (today + delay.total) else none

/-- `scheduler.add_job`; `none` where the id is in use. -/
def addJob (jobs : List (Job K)) (job : Job K) : Option (List (Job K)) :=
  if jobs.any (·.id = job.id) then none else some (jobs ++ [job])

/-! ## Scheduling: the jobs after the call and the job's id, `none` where the call raises -/

def scheduleJob (jobs : List (Job K)) (today : ℕ) (job : Function) (jobId : Option Str) (delay : Delay) (kwargs : K) :
    Option (List (Job K) × Str) := do
  let runDate ← schedule today delay
  if job.callable then
    let jobId ← match jobId with
      | some jobId => some jobId
      | none => job.name.map fun name => name ++ "-".toList ++ strftime runDate
    let jobs ← addJob jobs ⟨jobId, job, .date runDate, .given kwargs, false⟩
    return (jobs, jobId)
  else none

def scheduleIntervalJob (jobs : List (Job K)) (job : Function) (jobId : Option Str) (startDate endDate : Option ℕ)
    (days hours minutes seconds : ℕ) (kwargs : K) : Option (List (Job K) × Str) :=
  if job.callable then do
    let jobId ← match jobId with
      | some jobId => some jobId
      | none => job.name.map fun name =>
        name ++ "-interval-".toList ++ dec days ++ "-".toList ++ dec hours ++ "-".toList ++ dec minutes ++
          "-".toList ++ dec seconds
    let jobs ← addJob jobs
      ⟨jobId, job, .interval startDate endDate days hours minutes seconds, .given kwargs, false⟩
    return (jobs, jobId)
  else none

def scheduleCronJob (jobs : List (Job K)) (job : Function) (jobId : Option Str) (startDate endDate : Option ℕ)
    (fields : CronFields) (kwargs : K) : Option (List (Job K) × Str) :=
  if job.callable then do
    let jobId ← match jobId with
      | some jobId => some jobId
      | none => job.name.map fun name => name ++ "-cron".toList
    let jobs ← addJob jobs ⟨jobId, job, .cron startDate endDate fields, .given kwargs, false⟩
    return (jobs, jobId)
  else none

/-- `cat.send_ws_message`, of whichever cat. -/
def sendWsMessage : Function := ⟨true, some "send_ws_message".toList⟩

def scheduleChatMessage (jobs : List (Job K)) (today : ℕ) (content : Str) (delay : Delay) :
    Option (List (Job K) × Str) := do
  let runDate ← schedule today delay
  let jobId := "send_ws_message-".toList ++ strftime runDate
  let jobs ← addJob jobs ⟨jobId, sendWsMessage, .date runDate, .chat content, false⟩
  return (jobs, jobId)

/-! ## Jobs that are scheduled: the jobs after the call, and its outcome -/

def pauseJob (jobs : List (Job K)) (jobId : Str) : List (Job K) × Bool :=
  (jobs.map fun j => if j.id = jobId then { j with paused := true } else j, jobs.any (·.id = jobId))

/-- `again`: the trigger has another run. A job without one is removed. -/
def resumeJob (jobs : List (Job K)) (jobId : Str) (again : Bool) : List (Job K) × Bool :=
  (if again then jobs.map fun j => if j.id = jobId then { j with paused := false } else j
    else jobs.filter (·.id ≠ jobId), jobs.any (·.id = jobId))

def removeJob (jobs : List (Job K)) (jobId : Str) : List (Job K) × Bool :=
  (jobs.filter (·.id ≠ jobId), jobs.any (·.id = jobId))

/-- A call of a method that schedules. -/
inductive Call (K : Type)
  | job (today : ℕ) (function : Function) (jobId : Option Str) (delay : Delay) (kwargs : K)
  | interval (function : Function) (jobId : Option Str) (startDate endDate : Option ℕ) (days hours minutes seconds : ℕ)
    (kwargs : K)
  | cron (function : Function) (jobId : Option Str) (startDate endDate : Option ℕ) (fields : CronFields) (kwargs : K)
  | chat (today : ℕ) (content : Str) (delay : Delay)

def Call.respond (jobs : List (Job K)) : Call K → Option (List (Job K) × Str)
  | .job today function jobId delay kwargs => scheduleJob jobs today function jobId delay kwargs
  | .interval function jobId startDate endDate days hours minutes seconds kwargs =>
    scheduleIntervalJob jobs function jobId startDate endDate days hours minutes seconds kwargs
  | .cron function jobId startDate endDate fields kwargs =>
    scheduleCronJob jobs function jobId startDate endDate fields kwargs
  | .chat today content delay => scheduleChatMessage jobs today content delay

/-- What happens to the jobs: calls, and the end of a job that has no further run. -/
inductive Event (K : Type)
  | call (c : Call K)
  | pause (jobId : Str)
  | resume (jobId : Str) (again : Bool)
  | remove (jobId : Str)
  | ended (jobId : Str)

/-- A call that raises changes nothing. -/
def step (jobs : List (Job K)) : Event K → List (Job K)
  | .call c => ((c.respond jobs).map Prod.fst).getD jobs
  | .pause jobId => (pauseJob jobs jobId).1
  | .resume jobId again => (resumeJob jobs jobId again).1
  | .remove jobId => (removeJob jobs jobId).1
  | .ended jobId => jobs.filter (·.id ≠ jobId)

end KCore.WhiteRabbit
