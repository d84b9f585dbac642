import Gemios.Align
import Gemios.RtosMutex
import Gemios.RtosSem

/-!
# Message queues

`rtos_queue_create`, `rtos_queue_send` and `rtos_queue_receive` of
`src/src/rtos/sync.c`.  A call takes a permit of one semaphore, copies an item under the
queue's mutex, byte by byte, moves an index, changes the counter, and gives a permit of
the other semaphore.  Between any two of these the CPU can go to another task.  The buffer is a
block of `kmalloc`, which rounds the size that it is asked for up to 8 bytes; the memory behind the
block is not the queue's.
-/

namespace Gemios

open Function

/-! ### Data -/

/-- `rtos_queue_t`.  `buffer` is the memory from the buffer's address on, of which the first
    `bufferSize` bytes are the block that `kmalloc` gave; the semaphores and the mutex are named by
    their numbers. -/
structure Queue where
  buffer : Buf
  bufferSize : Nat
  itemSize : Nat
  capacity : Nat
  count : Nat
  head : Nat
  tail : Nat
  semItems : Nat
  semSpaces : Nat
  lock : Nat

/-- Conversion of a `size_t` to `int32_t`. -/
def i32 (n : Nat) : Int := if n < 2147483648 then n else (n : Int) - 4294967296

/-- The offset of byte `n` of the slot `index`. -/
def Queue.addr (q : Queue) (index n : Nat) : Nat := u32 (u32 (index * q.itemSize) + n)

/-- The bytes that `kmalloc` looks for when `rtos_queue_create` asks for the buffer. -/
def bufferRequest (itemSize capacity : Nat) : Nat := alignUp (u32 (itemSize * capacity)) 8

/-- What a successful `rtos_queue_create` leaves in the structure; `buffer` is what the
    memory held, and `bufferSize` the size of the block, which can be larger than the request. -/
def rtosQueueCreate (itemSize capacity : Nat) (buffer : Buf) (bufferSize semItems semSpaces lock : Nat) :
    Queue where
  buffer := buffer
  bufferSize := bufferSize
  itemSize := itemSize
  capacity := capacity
  count := 0
  head := 0
  tail := 0
  semItems := semItems
  semSpaces := semSpaces
  lock := lock

inductive Side where
  | send | receive
deriving DecidableEq

def Queue.takes (q : Queue) : Side → Nat
  | .send => q.semSpaces
  | .receive => q.semItems

def Queue.gives (q : Queue) : Side → Nat
  | .send => q.semItems
  | .receive => q.semSpaces

/-- One byte of the `memcpy` of a call: the queue and the caller's item after it. -/
def Queue.copyByte (q : Queue) (side : Side) (item : Buf) (n : Nat) : Queue × Buf :=
  match side with
  | .send => ({ q with buffer := update q.buffer (q.addr q.tail n) (item n) }, item)
  | .receive => (q, update item n (q.buffer (q.addr q.head n)))

def Queue.moveIndex (q : Queue) : Side → Queue
  | .send => { q with tail := u32 (q.tail + 1) % q.capacity }
  | .receive => { q with head := u32 (q.head + 1) % q.capacity }

def Queue.changeCount (q : Queue) : Side → Queue
  | .send => { q with count := u32 (q.count + 1) }
  | .receive => { q with count := u32 (q.count + 4294967295) }

/-! ### Steps -/

/-- Where a task is in a call; `item` is what the caller's pointer points at. -/
inductive QPlace where
  | out
  /-- Blocked in `rtos_sem_wait`. -/
  | waiting (side : Side) (item : Buf)
  /-- Before `rtos_mutex_lock`. -/
  | passed (side : Side) (item : Buf)
  /-- Blocked in `rtos_mutex_lock`. -/
  | locking (side : Side) (item : Buf)
  /-- In `memcpy`, with `n` bytes done. -/
  | copying (side : Side) (item : Buf) (n : Nat)
  /-- Before the change of the counter. -/
  | moved (side : Side)
  /-- Before `rtos_mutex_unlock`. -/
  | counted (side : Side)
  /-- Before `rtos_sem_signal`. -/
  | unlocked (side : Side)

/-- Where a task is after its `rtos_sem_wait`; when that fails, the call returns `false`. -/
def Outcome.passes (side : Side) (item : Buf) : Outcome → QPlace
  | .ret true => .passed side item
  | .ret false => .out
  | .block => .waiting side item

/-- Where a task is after its `rtos_mutex_lock`, whose result is not looked at. -/
def Outcome.locks (side : Side) (item : Buf) : Outcome → QPlace
  | .ret _ => .copying side item 0
  | .block => .locking side item

def itemBytes (size : Nat) (item : Buf) : List UInt8 := (List.range size).map item

/-- A system with a queue.  `log` holds the items that have been copied, with the tasks,
    in the order in which the indices were moved. -/
structure QSys where
  sys : Sys
  q : Queue
  place : Nat → QPlace
  log : Side → List (Nat × List UInt8)

namespace QSys

def go (s : QSys) (sys : Sys) (t : Nat) (p : QPlace) : QSys :=
  { s with sys := sys, place := update s.place t p }

end QSys

inductive QAct where
  | other
  | null (t : Nat) (side : Side)
  | enter (t : Nat) (side : Side) (timeoutMs : Nat) (out : Outcome)
  | wake (t : Nat)
  | lock (t : Nat)
  | locked (t : Nat)
  | copy (t : Nat)
  | move (t : Nat)
  | count (t : Nat)
  | unlock (t : Nat)
  | signal (t : Nat)

def Label.task : Label → Option Nat
  | .tick => none
  | .yield t => some t
  | .wait t _ _ _ => some t
  | .waitReturn t _ => some t
  | .signal t _ _ _ => some t
  | .lock t _ _ _ => some t
  | .lockReturn t _ => some t
  | .unlock t _ _ => some t
  | .eventWait t _ _ _ _ => some t
  | .eventSet t _ _ => some t
  | .eventClear t _ _ => some t
  | .delay t _ => some t
  | .kill t _ => some t
  | .resched t => some t

def Label.semOf : Label → Option Nat
  | .wait _ i _ _ => some i
  | .waitReturn _ i => some i
  | .signal _ i _ _ => some i
  | _ => none

/-- A step of a task outside of the calls, or a tick, that does not use the objects of the
    queue and kills nobody. -/
structure QSys.Other (s : QSys) (l : Label) : Prop where
  outside : ∀ t, l.task = some t → s.place t = .out
  sems : ∀ side, l.semOf ≠ some (s.q.takes side)
  mutex : l.mutexOf ≠ some s.q.lock
  noKill : ∀ t u, l ≠ .kill t u

/-- The steps, each with the steps of the scheduler and the objects that it is made of. -/
inductive QStep : QSys → QAct → List Label → QSys → Prop
  | other {s : QSys} {l : Label} {sys : Sys} (h : s.Other l) (hs : Step s.sys l sys) :
      QStep s .other [l] { s with sys := sys }
  /-- The owner of what is behind the block writes a byte there. -/
  | outside {s : QSys} {i : Nat} (hi : s.q.bufferSize ≤ i) (b : UInt8) :
      QStep s .other [] { s with q := { s.q with buffer := update s.q.buffer i b } }
  | null {s : QSys} {t : Nat} (hat : s.sys.At t .user) (hp : s.place t = .out) (side : Side) :
      QStep s (.null t side) [] s
  | enter {s : QSys} {t timeoutMs : Nat} {out : Outcome} {sys : Sys} (hp : s.place t = .out)
      (side : Side) (item : Buf) (hs : Step s.sys (.wait t (s.q.takes side) timeoutMs out) sys) :
      QStep s (.enter t side timeoutMs out) [.wait t (s.q.takes side) timeoutMs out]
        (s.go sys t (out.passes side item))
  | wake {s : QSys} {t : Nat} {side : Side} {item : Buf} {sys : Sys}
      (hp : s.place t = .waiting side item) (hs : Step s.sys (.waitReturn t (s.q.takes side)) sys) :
      QStep s (.wake t) [.waitReturn t (s.q.takes side)] (s.go sys t (.passed side item))
  | lock {s : QSys} {t : Nat} {side : Side} {item : Buf} {out : Outcome} {sys : Sys}
      (hp : s.place t = .passed side item)
      (hs : Step s.sys (.lock t s.q.lock 0xFFFFFFFF out) sys) :
      QStep s (.lock t) [.lock t s.q.lock 0xFFFFFFFF out] (s.go sys t (out.locks side item))
  | locked {s : QSys} {t : Nat} {side : Side} {item : Buf} {sys : Sys}
      (hp : s.place t = .locking side item) (hs : Step s.sys (.lockReturn t s.q.lock) sys) :
      QStep s (.locked t) [.lockReturn t s.q.lock] (s.go sys t (.copying side item 0))
  | copy {s : QSys} {t n : Nat} {side : Side} {item : Buf} (hat : s.sys.At t .user)
      (hp : s.place t = .copying side item n) (hn : n < s.q.itemSize) :
      QStep s (.copy t) []
        { s.go s.sys t (.copying side (s.q.copyByte side item n).2 (n + 1)) with
          q := (s.q.copyByte side item n).1 }
  | move {s : QSys} {t n : Nat} {side : Side} {item : Buf} (hat : s.sys.At t .user)
      (hp : s.place t = .copying side item n) (hn : n = s.q.itemSize) :
      QStep s (.move t) []
        { s.go s.sys t (.moved side) with
          q := s.q.moveIndex side
          log := update s.log side (s.log side ++ [(t, itemBytes s.q.itemSize item)]) }
  | count {s : QSys} {t : Nat} {side : Side} (hat : s.sys.At t .user)
      (hp : s.place t = .moved side) :
      QStep s (.count t) [] { s.go s.sys t (.counted side) with q := s.q.changeCount side }
  | unlock {s : QSys} {t : Nat} {side : Side} {w : Option Nat} {sys : Sys}
      (hp : s.place t = .counted side) (hs : Step s.sys (.unlock t s.q.lock w) sys) :
      QStep s (.unlock t) [.unlock t s.q.lock w] (s.go sys t (.unlocked side))
  | signal {s : QSys} {t : Nat} {side : Side} {w : Option Nat} {kept : Bool} {sys : Sys}
      (hp : s.place t = .unlocked side)
      (hs : Step s.sys (.signal t (s.q.gives side) w kept) sys) :
      QStep s (.signal t) [.signal t (s.q.gives side) w kept] (s.go sys t .out)

/-- A system that has just been started, with a queue that has just been created. -/
structure QSys.Init (initial maxCount : Nat → Int) (s : QSys) : Prop where
  sys : s.sys.Init initial maxCount
  created : ∃ itemSize capacity buffer bufferSize semItems semSpaces lock, 0 < itemSize ∧
    0 < capacity ∧ itemSize < 4294967296 ∧ capacity < 4294967296 ∧
    bufferRequest itemSize capacity ≤ bufferSize ∧
    s.q = rtosQueueCreate itemSize capacity buffer bufferSize semItems semSpaces lock ∧
    semItems ≠ semSpaces ∧ initial semItems = 0 ∧ maxCount semItems = i32 capacity ∧
    initial semSpaces = i32 capacity ∧ maxCount semSpaces = i32 capacity
  place : ∀ t, s.place t = .out
  log : ∀ side, s.log side = []

/-- The states that a run leads to, with the steps of the scheduler and the objects. -/
inductive QReach (init : QSys → Prop) : QSys → List Label → Prop
  | init {s : QSys} (h : init s) : QReach init s []
  | step {s s' : QSys} {a : QAct} {tr ls : List Label} (h : QReach init s tr)
      (hs : QStep s a ls s') : QReach init s' (tr ++ ls)

end Gemios
