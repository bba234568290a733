import Sysops.Cw08.PrintQueue

/-!
# The print queue is a bounded FIFO

What the semaphores count, which processes are between two of their steps
and what the ring holds, all in one invariant; and from it that every step
of the print queue is a step of a bounded FIFO or leaves that as it is.
-/

namespace Sysops.Cw08

open Processes

/-! ## Where the processes are -/

/-- Between its `sem_wait` and its `sem_post` of the mutex. -/
def Place.inside : Place → Bool
  | .copyIn | .moveTail | .postFull | .userPostMutex
  | .copyOut | .moveHead | .printerPostMutex => true
  | _ => false

/-- A user that has copied a job in and not posted it, a printer that has
waited for a job and not copied it out. -/
def Place.hasItem : Place → Bool
  | .moveTail | .postFull | .printerWaitMutex | .copyOut => true
  | _ => false

/-- A user that has waited for room and not copied its job in, a printer
that has copied a job out and not posted its room. -/
def Place.hasRoom : Place → Bool
  | .userWaitMutex | .copyIn
  | .moveHead | .printerPostMutex | .postEmpty => true
  | _ => false

/-- Having waited on one of `empty` and `full` and not posted the other. -/
def Place.between (a : Place) : Bool :=
  a.hasItem || a.hasRoom

def Place.atMoveTail (a : Place) : Bool := a = .moveTail

def Place.atMoveHead (a : Place) : Bool := a = .moveHead

theorem Place.inside_of_atMoveTail {a : Place} (h : a.atMoveTail = true) :
    a.inside = true := by
  rw [of_decide_eq_true h]
  rfl

theorem Place.inside_of_atMoveHead {a : Place} (h : a.atMoveHead = true) :
    a.inside = true := by
  rw [of_decide_eq_true h]
  rfl

section Count

variable {P : Type} [Fintype P]

/-- The number of processes at a place of a kind. -/
def State.count (s : State P) (c : Place → Bool) : Nat :=
  total (fun x => (c x.place).toNat) s.proc

end Count

/-! ## What one step of a process does -/

theorem semWait_eq_some {value n : Nat} :
    semWait value = some n ↔ value = n + 1 := by
  unfold semWait
  split
  · simp
    omega
  · simp
    omega

section Local

variable {rand : Nat → Nat} {m m' : Memory} {x x' : Process}

/-- The laws that one step keeps: what the semaphores and the record count
moves only between them and the process. -/
structure Keeps (m : Memory) (x : Process) (m' : Memory) (x' : Process) :
    Prop where
  mutex : m.queue.mutex + x.place.inside.toNat =
    m'.queue.mutex + x'.place.inside.toNat
  items : m'.copies.put.length + (m.copies.taken.length + m.queue.full +
      x.place.hasItem.toNat) = m.copies.put.length +
    (m'.copies.taken.length + m'.queue.full + x'.place.hasItem.toNat)
  room : m'.copies.taken.length + (m.copies.put.length + m.queue.empty +
      x.place.hasRoom.toNat) = m.copies.taken.length +
    (m'.copies.put.length + m'.queue.empty + x'.place.hasRoom.toNat)
  tail : (m'.queue.tail + x'.place.atMoveTail.toNat +
      m.copies.put.length) % maxJobs = (m.queue.tail +
    x.place.atMoveTail.toNat + m'.copies.put.length) % maxJobs
  head : (m'.queue.head + x'.place.atMoveHead.toNat +
      m.copies.taken.length) % maxJobs = (m.queue.head +
    x.place.atMoveHead.toNat + m'.copies.taken.length) % maxJobs

theorem run_keeps (h : Process.run rand m x = some (m', x')) :
    Keeps m x m' x' := by
  cases hx : x.place <;> cases hk : x.keepRunning <;>
    simp only [Process.run, hx, hk, Option.map_eq_some_iff, semWait_eq_some,
      Option.some.injEq, Prod.mk.injEq, reduceCtorEq, Process.goto,
      Bool.false_eq_true, if_true, if_false] at h
  all_goals first
    | -- a `sem_wait`
      obtain ⟨n, hn, rfl, rfl⟩ := h
      constructor <;> simp [hx, hn, Place.inside, Place.hasItem, Place.hasRoom,
        Place.atMoveTail, Place.atMoveHead] <;> omega
    | obtain ⟨rfl, rfl⟩ := h
      constructor <;> simp [hx, Place.inside, Place.hasItem, Place.hasRoom,
        Place.atMoveTail, Place.atMoveHead, semPost, advance, maxJobs] <;> omega

theorem signal_keeps (m : Memory) (x : Process) : Keeps m x m x.signal :=
  ⟨rfl, rfl, rfl, rfl, rfl⟩

/-- The copies are made by the two copying steps. -/
theorem run_copies (h : Process.run rand m x = some (m', x')) :
    (x.place = .copyIn ∧
      m'.copies = { m.copies with put := m.copies.put ++ [x.buf] } ∧
      m'.queue.jobs = Function.update m.queue.jobs m.queue.tail x.buf) ∨
    (x.place = .copyOut ∧
      m'.copies = { m.copies with
        taken := m.copies.taken ++ [m.queue.jobs m.queue.head] } ∧
      m'.queue.jobs = m.queue.jobs) ∨
    (m'.copies = m.copies ∧ m'.queue.jobs = m.queue.jobs) := by
  cases hx : x.place <;>
    simp only [Process.run, hx, Option.map_eq_some_iff, Option.some.injEq,
      Prod.mk.injEq, reduceCtorEq] at h
  case copyIn =>
      obtain ⟨rfl, rfl⟩ := h
      exact .inl ⟨rfl, rfl, rfl⟩
  case copyOut =>
      obtain ⟨rfl, rfl⟩ := h
      exact .inr (.inl ⟨rfl, rfl, rfl⟩)
  all_goals first
    | obtain ⟨n, hn, rfl, rfl⟩ := h
      exact .inr (.inr ⟨rfl, rfl⟩)
    | obtain ⟨rfl, rfl⟩ := h
      exact .inr (.inr ⟨rfl, rfl⟩)

end Local

/-! ## The invariant -/

/-- Runs without a fault: no wait is interrupted and nobody is killed. -/
def Action.Ordinary : Action → Prop
  | .run _ | .signal => True
  | .interrupt | .kill => False

section Invariant

variable {P : Type} [Fintype P]

/-- What holds between the semaphores, the processes, the indices, the ring
and the copies. -/
structure Inv (s : State P) : Prop where
  mutex : 1 = s.mem.queue.mutex + s.count Place.inside
  items : s.mem.copies.put.length = s.mem.copies.taken.length +
    s.mem.queue.full + s.count Place.hasItem
  room : s.mem.copies.taken.length + maxJobs = s.mem.copies.put.length +
    s.mem.queue.empty + s.count Place.hasRoom
  tail : (s.mem.queue.tail + s.count Place.atMoveTail) % maxJobs =
    s.mem.copies.put.length % maxJobs
  head : (s.mem.queue.head + s.count Place.atMoveHead) % maxJobs =
    s.mem.copies.taken.length % maxJobs
  bounded : s.mem.copies.Bounded maxJobs
  ring : s.mem.copies.InRing s.mem.queue.jobs

theorem State.le_count (s : State P) {c : Place → Bool} {p : P}
    (h : c (s.proc p).place = true) : 1 ≤ s.count c := by
  have hle := le_total (fun x : Process => (c x.place).toNat) s.proc p
  simp only [h, Bool.toNat_true] at hle
  exact hle

theorem State.count_eq_zero_iff (s : State P) {c : Place → Bool} :
    s.count c = 0 ↔ ∀ p, c (s.proc p).place = false := by
  simp [State.count, total_eq_zero_iff]

theorem Inv.initial {s : State P} (h : Initial s) : Inv s := by
  obtain ⟨hmem, hproc⟩ := h
  have hnone : ∀ c : Place → Bool, c .userTest = false →
      c .printerTest = false → s.count c = 0 := by
    intro c huser hprinter
    rw [State.count_eq_zero_iff]
    intro p
    rcases (hproc p).2 with hp | hp <;> rw [hp] <;> assumption
  constructor
  · rw [hnone _ rfl rfl, hmem]
    rfl
  · rw [hnone _ rfl rfl, hmem]
    rfl
  · rw [hnone _ rfl rfl, hmem]
    rfl
  · rw [hnone _ rfl rfl, hmem]
    rfl
  · rw [hnone _ rfl rfl, hmem]
    rfl
  · rw [hmem]
    exact .empty
  · rw [hmem]
    exact Fifo.inRing_empty _

variable [DecidableEq P] {s : State P} {p : P} {m : Memory} {x : Process}

theorem State.count_update (s : State P) (c : Place → Bool) (p : P)
    (m : Memory) (x : Process) :
    State.count ⟨m, Function.update s.proc p x⟩ c +
        (c (s.proc p).place).toNat = s.count c + (c x.place).toNat :=
  total_update (fun y : Process => (c y.place).toNat) s.proc p x

/-- At most one process is inside, so while one copies nobody else is
about to move an index. -/
theorem Inv.count_eq_zero (h : Inv s) (hp : (s.proc p).place.inside = true)
    {c : Place → Bool} (hc : ∀ a, c a = true → a.inside = true)
    (hcp : c (s.proc p).place = false) : s.count c = 0 := by
  have hmutex := h.mutex
  refine total_eq_zero_of_holder (w := fun x => x.place.inside.toNat)
    (p := p) ?_ ?_ ?_ ?_
  · change 1 = _ + total _ _ at hmutex
    omega
  · rw [hp]
    decide
  · intro y
    cases hy : c y.place with
    | false => exact Nat.zero_le _
    | true => rw [hc _ hy]
  · rw [hcp]
    rfl

/-- **Every step is a step of the FIFO, or none.** -/
theorem Inv.copies_step (h : Inv s) {rand : Nat → Nat}
    (hrun : Process.run rand s.mem (s.proc p) = some (m, x)) :
    m.copies = s.mem.copies ∨ Fifo.Step maxJobs s.mem.copies m.copies := by
  rcases run_copies hrun with ⟨hp, hcopies, -⟩ | ⟨hp, hcopies, -⟩ | ⟨hcopies, -⟩
  · have hroom := h.room
    have hone := s.le_count (c := Place.hasRoom) (p := p) (by rw [hp]; rfl)
    rw [hcopies]
    exact .inr (.put _ _ (by omega))
  · have hitems := h.items
    have hone := s.le_count (c := Place.hasItem) (p := p) (by rw [hp]; rfl)
    have hhead := h.head
    rw [h.count_eq_zero (p := p) (by rw [hp]; rfl)
      (fun _ => Place.inside_of_atMoveHead) (by rw [hp]; rfl), Nat.add_zero,
      Nat.mod_eq_of_lt s.mem.queue.head.isLt] at hhead
    rw [hcopies]
    exact .inr (.take _ _ (h.ring.oldest (by omega) hhead.symm))
  · exact .inl hcopies

/-- The ring after a step. -/
theorem Inv.ring_step (h : Inv s) {rand : Nat → Nat}
    (hrun : Process.run rand s.mem (s.proc p) = some (m, x)) :
    m.copies.InRing m.queue.jobs := by
  rcases run_copies hrun with ⟨hp, hcopies, hjobs⟩ | ⟨hp, hcopies, hjobs⟩ |
    ⟨hcopies, hjobs⟩
  · have hroom := h.room
    have hone := s.le_count (c := Place.hasRoom) (p := p) (by rw [hp]; rfl)
    have htail := h.tail
    rw [h.count_eq_zero (p := p) (by rw [hp]; rfl)
      (fun _ => Place.inside_of_atMoveTail) (by rw [hp]; rfl), Nat.add_zero,
      Nat.mod_eq_of_lt s.mem.queue.tail.isLt] at htail
    rw [hcopies, hjobs]
    exact h.ring.put (by omega) htail.symm _
  · rw [hcopies, hjobs]
    exact h.ring.take _
  · rw [hcopies, hjobs]
    exact h.ring

/-- The laws of one step, carried to all processes. -/
theorem Inv.of_keeps (h : Inv s) (hkeeps : Keeps s.mem (s.proc p) m x)
    (hbounded : m.copies.Bounded maxJobs)
    (hring : m.copies.InRing m.queue.jobs) :
    Inv (⟨m, Function.update s.proc p x⟩ : State P) := by
  have hcount := fun c => s.count_update c p m x
  constructor
  · have := hcount Place.inside
    have := hkeeps.mutex
    have := h.mutex
    show 1 = m.queue.mutex + _
    omega
  · have := hcount Place.hasItem
    have := hkeeps.items
    have := h.items
    show m.copies.put.length = m.copies.taken.length + m.queue.full + _
    omega
  · have := hcount Place.hasRoom
    have := hkeeps.room
    have := h.room
    show m.copies.taken.length + maxJobs =
      m.copies.put.length + m.queue.empty + _
    omega
  · have := hcount Place.atMoveTail
    have := hkeeps.tail
    have := h.tail
    show (m.queue.tail + _) % maxJobs = m.copies.put.length % maxJobs
    simp only [maxJobs] at *
    omega
  · have := hcount Place.atMoveHead
    have := hkeeps.head
    have := h.head
    show (m.queue.head + _) % maxJobs = m.copies.taken.length % maxJobs
    simp only [maxJobs] at *
    omega
  · exact hbounded
  · exact hring

theorem Inv.step (h : Inv s) {a : Action} (ha : a.Ordinary)
    (hact : Process.act a s.mem (s.proc p) = some (m, x)) :
    Inv (⟨m, Function.update s.proc p x⟩ : State P) := by
  cases a with
  | run rand =>
      refine h.of_keeps (run_keeps hact) ?_ (h.ring_step hact)
      rcases h.copies_step hact with hcopies | hcopies
      · rw [hcopies]
        exact h.bounded
      · exact h.bounded.step hcopies
  | signal =>
      obtain ⟨rfl, rfl⟩ := Prod.mk.inj (Option.some.inj hact)
      exact h.of_keeps (signal_keeps _ _) h.bounded h.ring
  | interrupt => exact ha.elim
  | kill => exact ha.elim

theorem inv_of_reachable {may : P → Action → Prop}
    (hmay : ∀ p a, may p a → a.Ordinary)
    (h : (printQueue may).Reachable s) : Inv s := by
  refine h.invariant (fun _ => Inv.initial) ?_
  intro s e t hs _ hstep
  obtain ⟨m, x, hact, rfl⟩ := act_eq_some.mp hstep.2
  exact hs.step (hmay _ _ hstep.1) hact

/-- **The print queue refines a bounded FIFO.** -/
theorem refines_fifo {may : P → Action → Prop}
    (hmay : ∀ p a, may p a → a.Ordinary) {t : State P} {e : P × Action}
    (h : (printQueue may).Reachable s) (hstep : (printQueue may).step s e t) :
    t.mem.copies = s.mem.copies ∨
      Fifo.Step maxJobs s.mem.copies t.mem.copies := by
  obtain ⟨m, x, hact, rfl⟩ := act_eq_some.mp hstep.2
  have ha := hmay _ _ hstep.1
  cases he : e.2 with
  | run rand =>
      rw [he] at hact
      exact (inv_of_reachable hmay h).copies_step hact
  | signal =>
      rw [he] at hact
      cases hact
      exact .inl rfl
  | interrupt =>
      rw [he] at ha
      exact ha.elim
  | kill =>
      rw [he] at ha
      exact ha.elim

/-- **The jobs that were copied out are the first of those that were copied
in, in order, at most `MAX_JOBS` are in between, and the indices are these
two numbers.** -/
theorem print_queue_is_fifo
    (h : (printQueue fun (_ : P) a => a.Ordinary).Reachable s) :
    s.mem.copies.taken <+: s.mem.copies.put ∧
      s.mem.copies.taken.length ≤ s.mem.copies.put.length ∧
      s.mem.copies.put.length ≤ s.mem.copies.taken.length + maxJobs ∧
      ((∀ p, (s.proc p).place.inside = false) →
        s.mem.queue.head = s.mem.copies.taken.length % maxJobs ∧
        s.mem.queue.tail = s.mem.copies.put.length % maxJobs) := by
  have hs := inv_of_reachable (fun _ _ ha => ha) h
  refine ⟨hs.bounded.inOrder, hs.bounded.inOrder.length_le, hs.bounded.room, ?_⟩
  intro hidle
  have hnone : ∀ c : Place → Bool, (∀ a, c a = true → a.inside = true) →
      s.count c = 0 := by
    intro c hc
    rw [State.count_eq_zero_iff]
    intro p
    cases hp : c (s.proc p).place with
    | false => rfl
    | true => exact absurd (hc _ hp) (by rw [hidle p]; decide)
  have htail := hs.tail
  have hhead := hs.head
  rw [hnone _ fun _ => Place.inside_of_atMoveTail, Nat.add_zero,
    Nat.mod_eq_of_lt s.mem.queue.tail.isLt] at htail
  rw [hnone _ fun _ => Place.inside_of_atMoveHead, Nat.add_zero,
    Nat.mod_eq_of_lt s.mem.queue.head.isLt] at hhead
  exact ⟨hhead, htail⟩

end Invariant

/-- A user `true` and a printer `false`. -/
def userAndPrinter : State Bool where
  mem := ⟨setupPrinterQueue, ⟨[], []⟩⟩
  proc p := ⟨if p then .userTest else .printerTest,
    Bytes.ofList printerBufferSize [], true⟩

instance (a : Action) : Decidable a.Ordinary :=
  match a with
  | .run _ | .signal => .isTrue trivial
  | .interrupt | .kill => .isFalse id

/-- Two different jobs are copied in and the first of them is copied out. -/
theorem print_queue_is_fifo_two_jobs : ∃ s : State Bool,
    (printQueue fun _ a => a.Ordinary).Reachable s ∧
      (s.mem.copies.put.Nodup ∧ s.mem.copies.put.length = 2 ∧
        s.mem.copies.taken.length = 1) ∧
      s.mem.copies.taken <+: s.mem.copies.put ∧
      s.mem.copies.put.length ≤ s.mem.copies.taken.length + maxJobs ∧
      s.mem.queue.head.val = 1 ∧ s.mem.queue.tail.val = 2 := by
  obtain ⟨s, hs, hp⟩ := System.ReachableIf.exists_of_runLabels
    (S := printQueue fun _ a => a.Ordinary) (C := fun _ _ => True)
    (stepIf (fun _ e => e.2.Ordinary) State.step)
    (fun _ _ _ => stepIf_eq_some.mp)
    (List.replicate 8 (true, .run fun i => i) ++
      List.replicate 8 (true, .run fun i => i + 1) ++
      List.replicate 6 (false, .run fun i => i))
    (p := fun s => decide ((s.mem.copies.put.Nodup ∧
      s.mem.copies.put.length = 2 ∧ s.mem.copies.taken.length = 1) ∧
      ∀ p, (s.proc p).place.inside = false)) (s := userAndPrinter)
    (.init ⟨rfl, by decide⟩) (by decide +kernel)
  obtain ⟨hjobs, hidle⟩ := of_decide_eq_true hp
  obtain ⟨horder, -, hroom, hindices⟩ := print_queue_is_fifo hs
  obtain ⟨hhead, htail⟩ := hindices hidle
  rw [hjobs.2.2] at hhead
  rw [hjobs.2.1] at htail
  exact ⟨s, hs, hjobs, horder, hroom, hhead, htail⟩

end Sysops.Cw08
