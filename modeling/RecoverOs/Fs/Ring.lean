import RecoverOs.Fs.File
import RecoverOs.Logic.Ring

namespace RecoverOs.Fs

open Bytes Transition

def nextPos (pos : Nat) : Nat := (pos + 1) % bufsize

def ioqFull (ioq : Ioqueue) : Bool := decide (nextPos ioq.head = ioq.tail)

def ioqEmpty (ioq : Ioqueue) : Bool := decide (ioq.head = ioq.tail)

def ioqueueInit (buf : Buffer) : Ioqueue := { buf := buf, head := 0, tail := 0 }

def pipeRead (ioq : Ioqueue) (count : Nat) : Except Halt (List UInt8 × Ioqueue) :=
  pipeReadLoop ioq (min (ioqLength ioq) count)

/-- The number of bytes that `pipe_write` puts into the queue. -/
def pipeSize (ioq : Ioqueue) (count : Nat) : Nat := min (bufsize - ioqLength ioq) count

def pipeWrite (ioq : Ioqueue) (buffer : Buffer) (count : Nat) : Except Halt Ioqueue :=
  pipeWriteLoop buffer ioq 0 (pipeSize ioq count)

structure Traffic where
  ioq : Ioqueue
  put : List UInt8
  got : List UInt8

inductive RingOp where
  | putchar (byte : UInt8)
  | getchar
  | pipeWrite (buffer : Buffer) (count : Nat)
  | pipeRead (count : Nat)

/-- A call that would block is not made. -/
def Traffic.step (s : Traffic) : RingOp → Except Halt Traffic
  | .putchar byte => do
    offer (!ioqFull s.ioq)
    let ioq ← ioqPutchar s.ioq byte
    return { s with ioq := ioq, put := s.put ++ [byte] }
  | .getchar => do
    offer (!ioqEmpty s.ioq)
    let (byte, ioq) ← ioqGetchar s.ioq
    return { s with ioq := ioq, got := s.got ++ [byte] }
  | .pipeWrite buffer count => do
    let ioq ← pipeWrite s.ioq buffer count
    return { s with ioq := ioq, put := s.put ++ (List.range (pipeSize s.ioq count)).map buffer }
  | .pipeRead count => do
    let (data, ioq) ← pipeRead s.ioq count
    return { s with ioq := ioq, got := s.got ++ data }

def Traffic.start (buf : Buffer) : Traffic := { ioq := ioqueueInit buf, put := [], got := [] }

variable {ioq after : Ioqueue} {queue data : List UInt8} {byte : UInt8} {count : Nat}

/-- The ring holds the bytes of `queue`. -/
structure Holds (ioq : Ioqueue) (queue : List UInt8) : Prop where
  tail : ioq.tail < bufsize
  head : ioq.head = (ioq.tail + queue.length) % bufsize
  bound : queue.length < bufsize
  bytes : Ring.contents ioq.buf bufsize ioq.tail queue.length = queue

theorem Holds.ioqLength (holds : Holds ioq queue) : ioqLength ioq = queue.length := by
  have tail := holds.tail
  have bound := holds.bound
  have head := holds.head
  unfold Fs.ioqLength
  simp only [bufsize] at tail bound head ⊢
  split
  · omega
  · omega

theorem Holds.empty_iff (holds : Holds ioq queue) : ioqEmpty ioq = true ↔ queue.length = 0 := by
  have tail := holds.tail
  have bound := holds.bound
  have head := holds.head
  rw [ioqEmpty, decide_eq_true_iff]
  simp only [bufsize] at tail bound head
  omega

theorem Holds.full_iff (holds : Holds ioq queue) : ioqFull ioq = true ↔ queue.length = bufsize - 1 := by
  have tail := holds.tail
  have bound := holds.bound
  have head := holds.head
  rw [ioqFull, decide_eq_true_iff]
  simp only [nextPos, bufsize] at tail bound head ⊢
  omega

theorem Holds.putchar (holds : Holds ioq queue) (ran : ioqPutchar ioq byte = .ok after) :
    Holds after (queue ++ [byte]) := by
  unfold ioqPutchar at ran
  split at ran
  · cases ran
  · rename_i room
    cases ran
    have free : queue.length ≠ bufsize - 1 := by
      intro full
      exact room (of_decide_eq_true (holds.full_iff.mpr full))
    have bound := holds.bound
    constructor
    case tail => exact holds.tail
    case head =>
      show (ioq.head + 1) % bufsize = (ioq.tail + (queue ++ [byte]).length) % bufsize
      rw [holds.head, Nat.mod_add_mod, List.length_append, List.length_singleton, Nat.add_assoc]
    case bound =>
      rw [List.length_append, List.length_singleton]
      simp only [bufsize] at free bound ⊢
      omega
    case bytes =>
      show Ring.contents (Function.update ioq.buf ioq.head byte) bufsize ioq.tail (queue ++ [byte]).length = _
      rw [List.length_append, List.length_singleton, holds.head, Ring.contents_push _ _ holds.bound, holds.bytes]

theorem Holds.getchar (holds : Holds ioq queue) (nonempty : queue ≠ []) :
    ∃ next, ioqGetchar ioq = .ok (queue.head nonempty, next) ∧ Holds next queue.tail := by
  cases queue with
  | nil => exact absurd rfl nonempty
  | cons first rest =>
    have some : ¬ ioq.head = ioq.tail := by
      intro same
      have empty := holds.empty_iff.mp (decide_eq_true same)
      cases empty
    have bytes := holds.bytes
    rw [List.length_cons, Ring.contents_pop, Nat.mod_eq_of_lt holds.tail] at bytes
    obtain ⟨here, remaining⟩ := List.cons.inj bytes
    refine ⟨{ ioq with tail := (ioq.tail + 1) % bufsize }, ?_, ?_⟩
    · rw [ioqGetchar, if_neg some, here]
      rfl
    · have bound := holds.bound
      rw [List.length_cons] at bound
      constructor
      case tail => exact Nat.mod_lt _ (by decide)
      case head =>
        show ioq.head = ((ioq.tail + 1) % bufsize + rest.length) % bufsize
        rw [holds.head, Nat.mod_add_mod, List.length_cons, Nat.add_assoc, Nat.add_comm 1]
      case bound => exact Nat.lt_of_succ_lt bound
      case bytes => exact remaining

theorem Holds.readLoop {left : Nat} (holds : Holds ioq queue) (enough : left ≤ queue.length) :
    ∃ next, pipeReadLoop ioq left = .ok (queue.take left, next) ∧ Holds next (queue.drop left) := by
  induction left generalizing ioq queue with
  | zero => exact ⟨ioq, rfl, holds⟩
  | succ left ih =>
    cases queue with
    | nil => exact absurd enough (Nat.not_succ_le_zero left)
    | cons first rest =>
      obtain ⟨middle, taken, rested⟩ := holds.getchar (List.cons_ne_nil first rest)
      obtain ⟨next, more, last⟩ := ih rested (Nat.le_of_succ_le_succ enough)
      refine ⟨next, ?_, last⟩
      rw [pipeReadLoop, taken]
      show (pipeReadLoop middle left >>= fun result => pure (first :: result.1, result.2)) = _
      rw [more]
      rfl

theorem Holds.writeLoop {buffer : Buffer} {i left : Nat} (holds : Holds ioq queue)
    (ran : pipeWriteLoop buffer ioq i left = .ok after) :
    Holds after (queue ++ (List.range left).map fun k => buffer (i + k)) := by
  induction left generalizing ioq queue i with
  | zero =>
    cases ran
    rw [List.range_zero, List.map_nil, List.append_nil]
    exact holds
  | succ left ih =>
    simp only [pipeWriteLoop, bind_ok] at ran
    obtain ⟨middle, first, rest⟩ := ran
    have more := ih (holds.putchar first) rest
    rw [List.range_succ_eq_map, List.map_cons, List.map_map, Nat.add_zero]
    rw [List.append_assoc, List.singleton_append] at more
    have shift : (fun k => buffer (i + 1 + k)) = (fun k => buffer (i + k)) ∘ Nat.succ := by
      funext k
      show buffer (i + 1 + k) = buffer (i + (k + 1))
      congr 1
      omega
    rw [← shift]
    exact more

def InTransit (s : Traffic) : Prop := ∃ queue, Holds s.ioq queue ∧ s.put = s.got ++ queue

theorem inTransit_step (s : Traffic) (op : RingOp) (next : Traffic) (transit : InTransit s) (_ : True)
    (ran : s.step op = .ok next) : InTransit next := by
  obtain ⟨queue, holds, same⟩ := transit
  cases op with
  | putchar byte =>
    simp only [Traffic.step, bind_ok, pure_ok] at ran
    obtain ⟨_, _, ioq, put, rfl⟩ := ran
    refine ⟨queue ++ [byte], holds.putchar put, ?_⟩
    show s.put ++ [byte] = s.got ++ (queue ++ [byte])
    rw [same, List.append_assoc]
  | getchar =>
    simp only [Traffic.step, bind_ok, offer_ok, Bool.not_eq_true', pure_ok, Prod.exists] at ran
    obtain ⟨_, some, byte, ioq, get, rfl⟩ := ran
    have nonempty : queue ≠ [] := by
      intro empty
      rw [holds.empty_iff.mpr (by rw [empty]; rfl)] at some
      cases some
    obtain ⟨after, taken, rest⟩ := holds.getchar nonempty
    rw [taken] at get
    cases get
    refine ⟨queue.tail, rest, ?_⟩
    show s.put = s.got ++ [queue.head nonempty] ++ queue.tail
    rw [same, List.append_assoc, List.singleton_append, List.cons_head_tail]
  | pipeWrite buffer count =>
    simp only [Traffic.step, bind_ok, pure_ok] at ran
    obtain ⟨ioq, write, rfl⟩ := ran
    have written := holds.writeLoop write
    simp only [Nat.zero_add] at written
    refine ⟨_, written, ?_⟩
    show s.put ++ _ = s.got ++ (queue ++ _)
    rw [same, List.append_assoc]
  | pipeRead count =>
    simp only [Traffic.step, bind_ok, pure_ok, Prod.exists] at ran
    obtain ⟨data, ioq, read, rfl⟩ := ran
    have enough : min (ioqLength s.ioq) count ≤ queue.length := by
      rw [holds.ioqLength]
      exact Nat.min_le_left ..
    obtain ⟨after, taken, rest⟩ := holds.readLoop enough
    rw [pipeRead, taken] at read
    cases read
    refine ⟨_, rest, ?_⟩
    show s.put = s.got ++ _ ++ _
    rw [same, List.append_assoc, List.take_append_drop]

theorem inTransit_start (buf : Buffer) : InTransit (Traffic.start buf) := by
  refine ⟨[], ⟨?_, rfl, ?_, rfl⟩, rfl⟩
  · show 0 < bufsize
    decide
  · show 0 < bufsize
    decide

/-- The ring is a queue of at most `bufsize - 1` bytes: what comes out is what went in, in order. -/
theorem ring_is_fifo (buf : Buffer) (ops : List RingOp) (s : Traffic)
    (ran : run Traffic.step (Traffic.start buf) ops = .ok s) :
    s.ioq.head < bufsize ∧ s.ioq.tail < bufsize ∧ s.got <+: s.put ∧
    ioqLength s.ioq = s.put.length - s.got.length ∧
    (ioqEmpty s.ioq = true ↔ s.put.length - s.got.length = 0) ∧
    (ioqFull s.ioq = true ↔ s.put.length - s.got.length = bufsize - 1) := by
  obtain ⟨queue, holds, same⟩ :=
    run_invariant inTransit_step (inTransit_start buf) (meets_true Traffic.step _ ops) ran
  have length : s.put.length - s.got.length = queue.length := by
    rw [same, List.length_append, Nat.add_sub_cancel_left]
  rw [length]
  refine ⟨?_, holds.tail, ⟨queue, same.symm⟩, holds.ioqLength, holds.empty_iff, holds.full_iff⟩
  rw [holds.head]
  exact Nat.mod_lt _ (by decide)

/-- A byte is put, a pipe is written and read twice. -/
def pipeOps : List RingOp :=
  [.putchar 7, .pipeWrite (fun i => UInt8.ofNat i) 3, .pipeRead 2, .getchar, .pipeRead 5]

theorem ring_is_fifo_pipe : ∃ s, run Traffic.step (Traffic.start fun _ => 0) pipeOps = .ok s ∧
    s.got = [7, 0, 1, 2] ∧ ioqLength s.ioq = 0 := by
  have evaluated : endsIn (run Traffic.step (Traffic.start fun _ => 0) pipeOps) (fun s =>
      decide (s.got = [7, 0, 1, 2] ∧ s.put = [7, 0, 1, 2])) = true := by
    decide +kernel
  obtain ⟨s, ran, check⟩ := exists_of_endsIn evaluated
  obtain ⟨got, put⟩ := of_decide_eq_true check
  have length := (ring_is_fifo _ pipeOps s ran).2.2.2.1
  rw [got, put] at length
  exact ⟨s, ran, got, length⟩

end RecoverOs.Fs
