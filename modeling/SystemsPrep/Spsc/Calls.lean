import SystemsPrep.Spsc.Counters

/-!
Calls of an SPSC ring with no step of the other side in between.

A call that runs alone is a function of the ring. What its copies do is a list of
byte moves between the buffer, whose addresses are taken modulo `2 ^ 64`, and the
caller's array.
-/

namespace SystemsPrep.Spsc

open Base

/-- Bytes copied from the caller's array into the buffer, one after the other. -/
def copyIn (buf e : ℕ → Byte) (ps : List (ℕ × ℕ)) : ℕ → Byte :=
  ps.foldl (fun buf p => Function.update buf p.1 (e p.2)) buf

def copyOut (buf out : ℕ → Byte) (ps : List (ℕ × ℕ)) : ℕ → Byte :=
  ps.foldl (fun out p => Function.update out p.2 (buf p.1)) out

/-- The same moves, with `r->buf + off` computed in 64 bits. -/
def wrapped (ps : List (ℕ × ℕ)) : List (ℕ × ℕ) := ps.map fun p => (p.1 % 2 ^ 64, p.2)

namespace SpscRing

/-! ### The producer's calls -/

/-- The end of `spsc_ring_push`: copy, and publish. -/
def pushSlot (r : SpscRing) (e : ℕ → Byte) : SpscRing :=
  { r with
    buf := copyIn r.buf e (wrapped (moves (r.slotCopies r.head)))
    head := r.head + 1 }

/-- `spsc_ring_push`. -/
def push (r : SpscRing) (e : ℕ → Byte) : SpscRing × Int :=
  if r.capacity ≤ r.head - r.cachedTail then
    let r := { r with cachedTail := r.tail }
    if r.capacity ≤ r.head - r.cachedTail then (r, -1) else (r.pushSlot e, 0)
  else (r.pushSlot e, 0)

/-- `spsc_ring_push_n` from `if (n == 0) return 0` on. -/
def pushBatch (r : SpscRing) (e : ℕ → Byte) (n : Size) : SpscRing × Size :=
  if n = 0 then (r, 0)
  else
    ({ r with
      buf := copyIn r.buf e (wrapped (moves (r.batchCopies r.head n)))
      head := r.head + n }, n)

/-- `spsc_ring_push_n`. -/
def pushN (r : SpscRing) (e : ℕ → Byte) (n : Size) : SpscRing × Size :=
  if r.remaining r.head < n then
    let r := { r with cachedTail := r.tail }
    r.pushBatch e (if r.remaining r.head < n then r.remaining r.head else n)
  else r.pushBatch e n

/-- Call `spsc_ring_push` on the elements of an array until `n` have been pushed or
one is refused. -/
def pushEach : ℕ → SpscRing → (ℕ → Byte) → SpscRing × ℕ
  | 0, r, _ => (r, 0)
  | n + 1, r, e =>
      let (r', ret) := r.push e
      if ret = 0 then
        let (r'', k) := pushEach n r' fun j => e (r.esize + j)
        (r'', k + 1)
      else (r', 0)

/-! ### The consumer's calls -/

/-- The end of `spsc_ring_pop`: copy, and give the slot back. -/
def popSlot (r : SpscRing) (e : ℕ → Byte) : SpscRing × (ℕ → Byte) :=
  ({ r with tail := r.tail + 1 }, copyOut r.buf e (wrapped (moves (r.slotCopies r.tail))))

/-- `spsc_ring_pop`, with the bytes of the caller's array before and after. -/
def pop (r : SpscRing) (e : ℕ → Byte) : SpscRing × Int × (ℕ → Byte) :=
  if r.tail = r.cachedHead then
    let r := { r with cachedHead := r.head }
    if r.tail = r.cachedHead then (r, -1, e) else ((r.popSlot e).1, 0, (r.popSlot e).2)
  else ((r.popSlot e).1, 0, (r.popSlot e).2)

/-- `spsc_ring_pop_n` from `if (n == 0) return 0` on. -/
def popBatch (r : SpscRing) (e : ℕ → Byte) (n : Size) : SpscRing × Size × (ℕ → Byte) :=
  if n = 0 then (r, 0, e)
  else
    ({ r with tail := r.tail + n }, n,
      copyOut r.buf e (wrapped (moves (r.batchCopies r.tail n))))

/-- `spsc_ring_pop_n`. -/
def popN (r : SpscRing) (e : ℕ → Byte) (n : Size) : SpscRing × Size × (ℕ → Byte) :=
  if r.avail r.tail < n then
    let r := { r with cachedHead := r.head }
    r.popBatch e (if r.avail r.tail < n then r.avail r.tail else n)
  else r.popBatch e n

/-- Call `spsc_ring_pop` on the elements of an array until `n` have been popped or
the ring has none. -/
def popEach : ℕ → SpscRing → (ℕ → Byte) → SpscRing × ℕ × (ℕ → Byte)
  | 0, r, e => (r, 0, e)
  | n + 1, r, e =>
      let (r', ret, e') := r.pop e
      if ret = 0 then
        let (r'', k, rest) := popEach n r' fun j => e' (r.esize + j)
        (r'', k + 1, fun j => if j < r.esize then e' j else rest (j - r.esize))
      else (r', 0, e')

end SpscRing

end SystemsPrep.Spsc
