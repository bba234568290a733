import Sysops.Library.CString
import Sysops.Library.Processes
import Sysops.Library.Ring

/-!
# `cw08`: the print queue of `printers_server.c` and `users_client.c`

`print_queue_t` in the shared memory, and the loops of `user_process` and
`printer_process` cut at each access to it: every `sem_wait`, every
`sem_post`, every copy of a job and every update of an index is a step of
its own, and the processes take their steps in any order. What else can
happen to a process is a signal, which sets its `keep_running` to zero and
may end a `sem_wait` that blocks, and `SIGKILL`.

What the printers print and the sleeping are left out: a printer goes from
its last `sem_post` to the test of its loop.
-/

namespace Sysops.Cw08

abbrev printerBufferSize : Nat := 3
abbrev maxJobs : Nat := 10

/-- `char[PRINTER_BUFFER_SIZE]`. -/
abbrev Job := Bytes printerBufferSize

/-- `print_queue_t`. A semaphore is its value. -/
structure PrintQueueT where
  jobs : Fin maxJobs → Job
  head : Fin maxJobs
  tail : Fin maxJobs
  mutex : Nat
  empty : Nat
  full : Nat

/-- `setup_printer_queue`, when the three calls of `sem_init` succeed. -/
def setupPrinterQueue : PrintQueueT where
  jobs _ := Bytes.ofList printerBufferSize []
  head := 0
  tail := 0
  mutex := 1
  empty := maxJobs
  full := 0

/-- The shared memory, and a record of the copies into and out of it that
no process reads. -/
structure Memory where
  queue : PrintQueueT
  copies : Fifo Job

/-- Where a process is in its function: the next thing it does. -/
inductive Place where
  -- `user_process`
  | userTest
  | generate
  | waitEmpty
  | userWaitMutex
  | copyIn
  | moveTail
  | postFull
  | userPostMutex
  | userReturned
  -- `printer_process`
  | printerTest
  | waitFull
  | printerWaitMutex
  | copyOut
  | moveHead
  | printerPostMutex
  | postEmpty
  | printerReturned
  -- either, by `SIGKILL`
  | killed
  deriving DecidableEq

/-- A process: `buf` of a user, `job` of a printer. -/
structure Process where
  place : Place
  buf : Job
  keepRunning : Bool

def Process.goto (x : Process) (place : Place) : Process :=
  { x with place := place }

/-- `sem_wait`: it blocks at zero. -/
def semWait (value : Nat) : Option Nat :=
  if value = 0 then none else some (value - 1)

/-- `sem_post`. -/
def semPost (value : Nat) : Nat := value + 1

/-- `(i + 1) % MAX_JOBS`. -/
def advance (i : Fin maxJobs) : Fin maxJobs :=
  ⟨(i.val + 1) % maxJobs, Nat.mod_lt _ (by decide)⟩

/-- `generate_random_text`, from the results of its calls of `rand`. -/
def generateRandomText (rand : Nat → Nat) : Job :=
  ⟨(List.range (printerBufferSize - 1)).map
    (fun i => UInt8.ofNat (97 + rand i % 26)) ++ [0], rfl⟩

/-! ## One process -/

/-- The next step of a process; none if it blocks or has ended. -/
def Process.run (rand : Nat → Nat) (m : Memory) (x : Process) :
    Option (Memory × Process) :=
  let q := m.queue
  match x.place with
  | .userTest =>
      some (m, x.goto (if x.keepRunning then .generate else .userReturned))
  | .generate =>
      some (m, { x with buf := generateRandomText rand, place := .waitEmpty })
  | .waitEmpty => (semWait q.empty).map fun n =>
      ({ m with queue := { q with empty := n } }, x.goto .userWaitMutex)
  | .userWaitMutex => (semWait q.mutex).map fun n =>
      ({ m with queue := { q with mutex := n } }, x.goto .copyIn)
  | .copyIn => some
      ({ queue := { q with jobs := Function.update q.jobs q.tail x.buf }
         copies := { m.copies with put := m.copies.put ++ [x.buf] } },
        x.goto .moveTail)
  | .moveTail =>
      some ({ m with queue := { q with tail := advance q.tail } },
        x.goto .postFull)
  | .postFull => some ({ m with queue := { q with full := semPost q.full } },
      x.goto .userPostMutex)
  | .userPostMutex =>
      some ({ m with queue := { q with mutex := semPost q.mutex } },
        x.goto .userTest)
  | .printerTest =>
      some (m, x.goto (if x.keepRunning then .waitFull else .printerReturned))
  | .waitFull => (semWait q.full).map fun n =>
      ({ m with queue := { q with full := n } }, x.goto .printerWaitMutex)
  | .printerWaitMutex => (semWait q.mutex).map fun n =>
      ({ m with queue := { q with mutex := n } }, x.goto .copyOut)
  | .copyOut => some
      ({ m with copies :=
          { m.copies with taken := m.copies.taken ++ [q.jobs q.head] } },
        { x with buf := q.jobs q.head, place := .moveHead })
  | .moveHead =>
      some ({ m with queue := { q with head := advance q.head } },
        x.goto .printerPostMutex)
  | .printerPostMutex =>
      some ({ m with queue := { q with mutex := semPost q.mutex } },
        x.goto .postEmpty)
  | .postEmpty =>
      some ({ m with queue := { q with empty := semPost q.empty } },
        x.goto .printerTest)
  | .userReturned | .printerReturned | .killed => none

/-- `sig_handler`. -/
def Process.signal (x : Process) : Process :=
  { x with keepRunning := false }

/-- A signal that ends a `sem_wait` while it blocks. Its result is not
looked at, so the process goes on behind it. -/
def Process.interrupt (m : Memory) (x : Process) : Option (Memory × Process) :=
  match x.place with
  | .waitEmpty =>
      if m.queue.empty = 0 then some (m, x.signal.goto .userWaitMutex)
      else none
  | .userWaitMutex =>
      if m.queue.mutex = 0 then some (m, x.signal.goto .copyIn) else none
  | .waitFull =>
      if m.queue.full = 0 then some (m, x.signal.goto .printerWaitMutex)
      else none
  | .printerWaitMutex =>
      if m.queue.mutex = 0 then some (m, x.signal.goto .copyOut) else none
  | _ => none

def Place.isUser : Place → Bool
  | .userTest | .generate | .waitEmpty | .userWaitMutex | .copyIn
  | .moveTail | .postFull | .userPostMutex | .userReturned => true
  | _ => false

/-- `kill(pid, SIGKILL)` of the main function of the users. -/
def Process.kill (m : Memory) (x : Process) : Option (Memory × Process) :=
  if x.place.isUser then some (m, x.goto .killed) else none

/-! ## All processes -/

/-- What happens to a process. -/
inductive Action where
  | run (rand : Nat → Nat)
  | signal
  | interrupt
  | kill

def Process.act : Action → Memory → Process → Option (Memory × Process)
  | .run rand => Process.run rand
  | .signal => fun m x => some (m, x.signal)
  | .interrupt => Process.interrupt
  | .kill => Process.kill

abbrev State (P : Type) := Processes P Memory Process

section System

variable {P : Type} [DecidableEq P]

def State.step (s : State P) (e : P × Action) : Option (State P) :=
  Processes.act (Process.act e.2) s e.1

/-- After `setup_printer_queue`, every process before its first step. -/
def Initial (s : State P) : Prop :=
  s.mem = ⟨setupPrinterQueue, ⟨[], []⟩⟩ ∧ ∀ p,
    (s.proc p).keepRunning = true ∧
      ((s.proc p).place = .userTest ∨ (s.proc p).place = .printerTest)

/-- Users and printers where the given things may happen. -/
def printQueue (may : P → Action → Prop) :
    System (State P) (P × Action) where
  init := Initial
  step s e t := may e.1 e.2 ∧ s.step e = some t

end System

end Sysops.Cw08
