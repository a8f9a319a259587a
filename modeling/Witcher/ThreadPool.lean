import Mathlib.Data.Fintype.Basic
import Mathlib.Logic.Function.Basic
import Witcher.Runs

/-! The thread pool of the parallel engines (`engines/witcherutils/WitcherParallelUtils.py`). The
dispatcher puts tasks into a queue; for a `Barrier` request it puts one `None` for each worker, waits on a
condition variable without a predicate and replies. A worker that takes a `None` waits at the barrier of
all workers and then notifies the condition variable. -/

namespace Witcher

inductive Request where
  | task
  | barrier
  deriving DecidableEq, Repr

/-- A task with its number, or `None`. A `None` is marked with the `Barrier` request it was put for and
the number of tasks put before that request; no step depends on these numbers. -/
inductive Job where
  | task (number : Nat)
  | none (round mark : Nat)
  deriving DecidableEq, Repr

/-- Where `_operateThreadPool` is. `leaving` holds the lock again after the wait. -/
inductive DispatcherPc where
  | receiving
  | putting (left : Nat)
  | holding
  | waiting
  | woken
  | leaving
  | replying
  deriving DecidableEq, Repr

/-- Where `run` of a worker is, with the numbers of the job it took. `inBarrier` has entered the barrier,
`passed` is before `with threadWaitCondition`, `holding` is before `notify_all` and `notified` after it. -/
inductive WorkerPc where
  | polling
  | getting
  | executing (number : Nat)
  | arriving (round mark : Nat)
  | inBarrier (round mark : Nat)
  | passed (round mark : Nat)
  | holding (round mark : Nat)
  | notified
  | taskDone
  deriving DecidableEq, Repr

/-- `barrierCount` and `draining` are the state of the barrier of `N` parties, `locked` that of the lock of
the condition variable. The last four fields record the run: the number of tasks put, the number of
`Barrier` requests, the tasks put before the last one, and the tasks executed. -/
structure ThreadPool (N : Nat) where
  requests : List Request
  dispatcher : DispatcherPc
  queue : List Job
  worker : Fin N → WorkerPc
  barrierCount : Nat
  draining : Bool
  locked : Bool
  enqueued : Nat
  round : Nat
  mark : Nat
  finished : List Nat

inductive Action (N : Nat) where
  | receive
  | putNone
  | dispatcherAcquire
  | wait
  | dispatcherRelease
  | reply
  | poll (w : Fin N)
  | get (w : Fin N)
  | finish (w : Fin N)
  | enterBarrier (w : Fin N)
  | leaveBarrier (w : Fin N)
  | acquire (w : Fin N)
  | notifyAll (w : Fin N)
  | release (w : Fin N)
  | taskDone (w : Fin N)
  deriving DecidableEq, Repr

namespace ThreadPool

variable {N : Nat}

def init (N : Nat) (requests : List Request) : ThreadPool N :=
  ⟨requests, .receiving, [], fun _ => .polling, 0, false, false, 0, 0, 0, []⟩

def setWorker (s : ThreadPool N) (w : Fin N) (pc : WorkerPc) : ThreadPool N :=
  { s with worker := Function.update s.worker w pc }

/-! ### The dispatcher -/

/-- A `Barrier` request puts one `None` for each worker. -/
def receive (s : ThreadPool N) : Option (ThreadPool N) :=
  match s.dispatcher, s.requests with
  | .receiving, .task :: rest => some
      { s with requests := rest, queue := s.queue ++ [.task s.enqueued], enqueued := s.enqueued + 1 }
  | .receiving, .barrier :: rest => some
      { s with requests := rest, dispatcher := .putting N, round := s.round + 1, mark := s.enqueued }
  | _, _ => none

def putNone (s : ThreadPool N) : Option (ThreadPool N) :=
  match s.dispatcher with
  | .putting (left + 1) => some { s with queue := s.queue ++ [.none s.round s.mark], dispatcher := .putting left }
  | _ => none

/-- The lock is taken before the wait, and once more when the wait returns. -/
def dispatcherAcquire (s : ThreadPool N) : Option (ThreadPool N) :=
  if s.locked then none
  else
    match s.dispatcher with
    | .putting 0 => some { s with locked := true, dispatcher := .holding }
    | .woken => some { s with locked := true, dispatcher := .leaving }
    | _ => none

/-- `wait` releases the lock until a notification. -/
def wait (s : ThreadPool N) : Option (ThreadPool N) :=
  if s.dispatcher = .holding then some { s with locked := false, dispatcher := .waiting } else none

def dispatcherRelease (s : ThreadPool N) : Option (ThreadPool N) :=
  if s.dispatcher = .leaving then some { s with locked := false, dispatcher := .replying } else none

/-- `BarrierComplete` is sent. -/
def reply (s : ThreadPool N) : Option (ThreadPool N) :=
  if s.dispatcher = .replying then some { s with dispatcher := .receiving } else none

/-! ### A worker -/

def poll (s : ThreadPool N) (w : Fin N) : Option (ThreadPool N) :=
  if s.worker w = .polling ∧ s.queue ≠ [] then some (s.setWorker w .getting) else none

/-- `get` blocks on an empty queue. -/
def get (s : ThreadPool N) (w : Fin N) : Option (ThreadPool N) :=
  match s.worker w, s.queue with
  | .getting, .task number :: rest => some { s.setWorker w (.executing number) with queue := rest }
  | .getting, .none round mark :: rest => some { s.setWorker w (.arriving round mark) with queue := rest }
  | _, _ => none

def finish (s : ThreadPool N) (w : Fin N) : Option (ThreadPool N) :=
  match s.worker w with
  | .executing number => some { s.setWorker w .taskDone with finished := number :: s.finished }
  | _ => none

/-- A barrier that is being left cannot be entered; the last party to enter lets all of them leave. -/
def enterBarrier (s : ThreadPool N) (w : Fin N) : Option (ThreadPool N) :=
  match s.worker w with
  | .arriving round mark =>
      if s.draining then none
      else some
        { s.setWorker w (.inBarrier round mark) with
          barrierCount := s.barrierCount + 1
          draining := s.barrierCount + 1 = N }
  | _ => none

def leaveBarrier (s : ThreadPool N) (w : Fin N) : Option (ThreadPool N) :=
  match s.worker w with
  | .inBarrier round mark =>
      if s.draining then some
        { s.setWorker w (.passed round mark) with
          barrierCount := s.barrierCount - 1
          draining := s.barrierCount - 1 ≠ 0 }
      else none
  | _ => none

def acquire (s : ThreadPool N) (w : Fin N) : Option (ThreadPool N) :=
  match s.worker w with
  | .passed round mark => if s.locked then none else some { s.setWorker w (.holding round mark) with locked := true }
  | _ => none

/-- A notification wakes the dispatcher if it waits and is lost otherwise. -/
def notifyAll (s : ThreadPool N) (w : Fin N) : Option (ThreadPool N) :=
  match s.worker w with
  | .holding _ _ => some
      { s.setWorker w .notified with dispatcher := if s.dispatcher = .waiting then .woken else s.dispatcher }
  | _ => none

def release (s : ThreadPool N) (w : Fin N) : Option (ThreadPool N) :=
  if s.worker w = .notified then some { s.setWorker w .taskDone with locked := false } else none

def taskDone (s : ThreadPool N) (w : Fin N) : Option (ThreadPool N) :=
  if s.worker w = .taskDone then some (s.setWorker w .polling) else none

def step (s : ThreadPool N) : Action N → Option (ThreadPool N)
  | .receive => s.receive
  | .putNone => s.putNone
  | .dispatcherAcquire => s.dispatcherAcquire
  | .wait => s.wait
  | .dispatcherRelease => s.dispatcherRelease
  | .reply => s.reply
  | .poll w => s.poll w
  | .get w => s.get w
  | .finish w => s.finish w
  | .enterBarrier w => s.enterBarrier w
  | .leaveBarrier w => s.leaveBarrier w
  | .acquire w => s.acquire w
  | .notifyAll w => s.notifyAll w
  | .release w => s.release w
  | .taskDone w => s.taskDone w

end ThreadPool

end Witcher
