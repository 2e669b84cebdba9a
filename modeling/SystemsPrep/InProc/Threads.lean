import SystemsPrep.Base.Exec
import SystemsPrep.InProc.Schedule

/-!
Threads inside `send` and `recv`, with the mutexes and the condition variables.

`Schedule` takes a push, and a wait with the taking of the front, as one step. Here
the calls are taken apart further: the copy out of the caller's buffer, the mutex of
the queue, the predicate of the wait, the atomic unlock-and-sleep, the notification
after the unlock, and the copy into the caller's buffer. The programs around the
calls are left open: any thread may make any call when it is not inside one, and the
memory of the process may be stored to at any moment.
-/

namespace SystemsPrep.InProc.Threads

open Base

inductive Call
  | send (dst : ℤ) (buf : Addr) (len : ℕ)
  | recv (src : ℤ) (buf : Addr) (len : ℕ)

/-- The locals of a `recv` whose peer has passed the check. -/
structure RecvCall (n : ℕ) where
  src : Fin n
  idx : ℕ
  buf : Addr
  len : ℕ
  deriving DecidableEq

/-- Where a thread stands. The flag of a receiver says that it has been notified and
has since neither taken a message nor gone back to sleep. -/
inductive Stage (n : ℕ)
  | program
  | copyIn (dst : Fin n) (idx : ℕ) (buf : Addr) (len : ℕ)
  | lock (idx : ℕ) (bytes : List Byte)
  | push (idx : ℕ) (bytes : List Byte)
  | unlock (idx : ℕ)
  | notify (idx : ℕ)
  | enter (c : RecvCall n) (notified : Bool)
  | test (c : RecvCall n) (notified : Bool)
  | wait (c : RecvCall n) (notified : Bool)
  | asleep (c : RecvCall n) (notified : Bool)
  | take (c : RecvCall n) (notified : Bool)
  | leave (c : RecvCall n) (bytes : List Byte)
  | copyOut (c : RecvCall n) (bytes : List Byte)
  deriving DecidableEq

/-- A `send` at the moment its `memcpy` runs. -/
structure SendRecord (n : ℕ) where
  dst : Fin n
  buf : Addr
  len : ℕ
  mem : Mem

/-- A `recv` that has ended after its wait: the message it took, and the memory on both
sides of its last step. -/
structure RecvRecord (n : ℕ) where
  call : RecvCall n
  bytes : List Byte
  before : Mem
  after : Mem
  outcome : Outcome

/-- What a thread has done: the outcomes of its calls, the sends that have copied their
buffer, the receives past their wait and the receives that have ended after it. -/
structure History (n : ℕ) where
  outcomes : List Outcome
  sends : List (SendRecord n)
  takes : List (Fin n × List Byte)
  recvs : List (RecvRecord n)

/-- The grid with the holders of its mutexes, the memory of the process, and the
threads. The sleepers of a condition variable are the threads asleep on its queue. -/
structure World (n : ℕ) (ι : Type*) where
  grid : InProcGrid
  mu : ℕ → Option ι
  mem : Mem
  stage : ι → Stage n
  history : ι → History n

inductive Action (ι : Type*)
  | store (a : Addr) (bytes : List Byte)
  | call (t : ι) (c : Call)
  | next (t : ι)
  | notifyOne (t u : ι)

variable {n : ℕ} {ι : Type*}

def World.start (mem : Mem) : World n ι where
  grid := .create n
  mu _ := none
  mem := mem
  stage _ := .program
  history _ := { outcomes := [], sends := [], takes := [], recvs := [] }

def Stage.sleepsOn (idx : ℕ) : Stage n → Bool
  | .asleep c false => c.idx = idx
  | _ => false

def Stage.rouse : Stage n → Stage n
  | .asleep c _ => .asleep c true
  | s => s

def SendRecord.message (e : SendRecord n) : List Byte := e.mem.read e.buf e.len

namespace History

def finish (x : History n) (o : Outcome) : History n :=
  { x with outcomes := x.outcomes ++ [o] }

def send (x : History n) (e : SendRecord n) : History n := { x with sends := x.sends ++ [e] }

def take (x : History n) (src : Fin n) (bytes : List Byte) : History n :=
  { x with takes := x.takes ++ [(src, bytes)] }

def recv (x : History n) (e : RecvRecord n) : History n := { x with recvs := x.recvs ++ [e] }

def sentTo (x : History n) (dst : Fin n) : List (List Byte) :=
  (x.sends.filter (·.dst = dst)).map SendRecord.message

def takenFrom (x : History n) (src : Fin n) : List (List Byte) :=
  (x.takes.filter (·.1 = src)).map Prod.snd

end History

variable [DecidableEq ι]

namespace World

variable (w : World n ι) (t : ι)

def setStage (s : Stage n) : World n ι := { w with stage := Function.update w.stage t s }

def setHistory (x : History n) : World n ι :=
  { w with history := Function.update w.history t x }

def setMu (idx : ℕ) (holder : Option ι) : World n ι :=
  { w with mu := Function.update w.mu idx holder }

def finish (o : Outcome) : World n ι :=
  (w.setStage t .program).setHistory t ((w.history t).finish o)

@[simp] theorem setStage_stage (s : Stage n) :
    (w.setStage t s).stage = Function.update w.stage t s := rfl

@[simp] theorem finish_stage (o : Outcome) :
    (w.finish t o).stage = Function.update w.stage t .program := rfl

end World

/-- The beginning of a call: the check of the peer, and the index of the queue. -/
def World.begin (rank : ι → Fin n) (w : World n ι) (t : ι) : Call → World n ι
  | .send dst buf len =>
      if h : (transport (rank t)).OutOfRange dst then
        w.finish t (.threw (.outOfRange "send dst"))
      else w.setStage t (.copyIn ⟨dst.toNat, lt_of_not_outOfRange h⟩
        ((transport (rank t)).sendIdx dst) buf len)
  | .recv src buf len =>
      if h : (transport (rank t)).OutOfRange src then
        w.finish t (.threw (.outOfRange "recv src"))
      else w.setStage t (.enter
        ⟨⟨src.toNat, lt_of_not_outOfRange h⟩, (transport (rank t)).recvIdx src, buf, len⟩ false)

def World.copyOut (w : World n ι) (t : ι) (c : RecvCall n) (bytes : List Byte) : World n ι :=
  let mem := if bytes.length ≠ c.len then w.mem else w.mem.write c.buf bytes
  let o : Outcome := if bytes.length ≠ c.len then
    .threw (.runtimeError "recv size mismatch") else .received bytes
  { w.finish t o with
    mem := mem
    history := Function.update w.history t
      (((w.history t).finish o).recv ⟨c, bytes, w.mem, mem, o⟩) }

/-- The next step of a thread inside a call. -/
def World.next [Fintype ι] (w : World n ι) (t : ι) : Option (World n ι) :=
  match w.stage t with
  | .program => none
  | .copyIn dst idx buf len =>
      some ((w.setStage t (.lock idx (w.mem.read buf len))).setHistory t
        ((w.history t).send ⟨dst, buf, len, w.mem⟩))
  | .lock idx bytes =>
      if w.mu idx = none then some ((w.setStage t (.push idx bytes)).setMu idx (some t))
      else none
  | .push idx bytes =>
      some { w.setStage t (.unlock idx) with grid := w.grid.push idx bytes }
  | .unlock idx => some ((w.setStage t (.notify idx)).setMu idx none)
  | .notify idx =>
      -- with a sleeper to choose the step is `notifyOne`
      if ∃ u, (w.stage u).sleepsOn idx then none else some (w.finish t .sent)
  | .enter c b =>
      if w.mu c.idx = none then some ((w.setStage t (.test c b)).setMu c.idx (some t))
      else none
  | .test c b =>
      match w.grid.q c.idx with
      | [] => some (w.setStage t (.wait c b))
      | _ :: _ => some (w.setStage t (.take c b))
  | .wait c _ => some ((w.setStage t (.asleep c false)).setMu c.idx none)
  | .asleep c b => some (w.setStage t (.enter c b)) -- notified, or a spurious wake-up
  | .take c _ =>
      match w.grid.q c.idx with
      | [] => none
      | bytes :: _ =>
          some { (w.setStage t (.leave c bytes)).setHistory t ((w.history t).take c.src bytes) with
            grid := w.grid.pop c.idx }
  | .leave c bytes => some ((w.setStage t (.copyOut c bytes)).setMu c.idx none)
  | .copyOut c bytes => some (w.copyOut t c bytes)

/-- `rank t` is the rank whose transport thread `t` uses. -/
def step [Fintype ι] (rank : ι → Fin n) (w : World n ι) : Action ι → Option (World n ι)
  | .store a bytes => some { w with mem := w.mem.write a bytes }
  | .call t c =>
      match w.stage t with
      | .program => some (w.begin rank t c)
      | _ => none
  | .next t => w.next t
  | .notifyOne t u =>
      match w.stage t with
      | .notify idx =>
          if (w.stage u).sleepsOn idx then
            some ((w.setStage u (w.stage u).rouse).finish t .sent)
          else none
      | _ => none

/-! ### What a step does -/

inductive Move (rank : ι → Fin n) (w : World n ι) : World n ι → Prop
  | store (a : Addr) (bytes : List Byte) : Move rank w { w with mem := w.mem.write a bytes }
  | refuse (t : ι) (e : Exception) (ht : w.stage t = .program) :
      Move rank w (w.finish t (.threw e))
  | send (t : ι) (dst : Fin n) (buf : Addr) (len : ℕ) (ht : w.stage t = .program) :
      Move rank w (w.setStage t (.copyIn dst ((transport (rank t)).sendIdx (dst : ℕ)) buf len))
  | recv (t : ι) (src : Fin n) (buf : Addr) (len : ℕ) (ht : w.stage t = .program) :
      Move rank w (w.setStage t
        (.enter ⟨src, (transport (rank t)).recvIdx (src : ℕ), buf, len⟩ false))
  | copyIn (t : ι) (dst : Fin n) (idx : ℕ) (buf : Addr) (len : ℕ)
      (ht : w.stage t = .copyIn dst idx buf len) :
      Move rank w ((w.setStage t (.lock idx (w.mem.read buf len))).setHistory t
        ((w.history t).send ⟨dst, buf, len, w.mem⟩))
  | lock (t : ι) (idx : ℕ) (bytes : List Byte) (ht : w.stage t = .lock idx bytes)
      (hmu : w.mu idx = none) :
      Move rank w ((w.setStage t (.push idx bytes)).setMu idx (some t))
  | push (t : ι) (idx : ℕ) (bytes : List Byte) (ht : w.stage t = .push idx bytes) :
      Move rank w { w.setStage t (.unlock idx) with grid := w.grid.push idx bytes }
  | unlock (t : ι) (idx : ℕ) (ht : w.stage t = .unlock idx) :
      Move rank w ((w.setStage t (.notify idx)).setMu idx none)
  | nobody (t : ι) (idx : ℕ) (ht : w.stage t = .notify idx)
      (hnone : ∀ u, (w.stage u).sleepsOn idx = false) : Move rank w (w.finish t .sent)
  | rouse (t u : ι) (idx : ℕ) (c : RecvCall n) (ht : w.stage t = .notify idx)
      (hu : w.stage u = .asleep c false) (hidx : c.idx = idx) :
      Move rank w ((w.setStage u (.asleep c true)).finish t .sent)
  | enter (t : ι) (c : RecvCall n) (b : Bool) (ht : w.stage t = .enter c b)
      (hmu : w.mu c.idx = none) :
      Move rank w ((w.setStage t (.test c b)).setMu c.idx (some t))
  | empty (t : ι) (c : RecvCall n) (b : Bool) (ht : w.stage t = .test c b)
      (hq : w.grid.q c.idx = []) : Move rank w (w.setStage t (.wait c b))
  | filled (t : ι) (c : RecvCall n) (b : Bool) (ht : w.stage t = .test c b)
      (hq : w.grid.q c.idx ≠ []) : Move rank w (w.setStage t (.take c b))
  | wait (t : ι) (c : RecvCall n) (b : Bool) (ht : w.stage t = .wait c b) :
      Move rank w ((w.setStage t (.asleep c false)).setMu c.idx none)
  | wake (t : ι) (c : RecvCall n) (b : Bool) (ht : w.stage t = .asleep c b) :
      Move rank w (w.setStage t (.enter c b))
  | take (t : ι) (c : RecvCall n) (b : Bool) (bytes : List Byte) (rest : List (List Byte))
      (ht : w.stage t = .take c b) (hq : w.grid.q c.idx = bytes :: rest) :
      Move rank w
        { (w.setStage t (.leave c bytes)).setHistory t ((w.history t).take c.src bytes) with
          grid := w.grid.pop c.idx }
  | leave (t : ι) (c : RecvCall n) (bytes : List Byte) (ht : w.stage t = .leave c bytes) :
      Move rank w ((w.setStage t (.copyOut c bytes)).setMu c.idx none)
  | copyOut (t : ι) (c : RecvCall n) (bytes : List Byte) (ht : w.stage t = .copyOut c bytes) :
      Move rank w (w.copyOut t c bytes)

theorem sleepsOn_eq_true {s : Stage n} {idx : ℕ} :
    s.sleepsOn idx = true ↔ ∃ c, s = .asleep c false ∧ c.idx = idx := by
  constructor
  · intro h
    unfold Stage.sleepsOn at h
    split at h
    · exact ⟨_, rfl, of_decide_eq_true h⟩
    · cases h
  · rintro ⟨c, rfl, rfl⟩
    exact decide_eq_true rfl

theorem toNat_cast_of_not_outOfRange {r : Fin n} {peer : ℤ}
    (h : ¬ (transport r).OutOfRange peer) : ((peer.toNat : ℕ) : ℤ) = peer := by
  simp only [InProcTransport.OutOfRange, transport, not_or] at h
  exact Int.toNat_of_nonneg (by omega)

theorem move_of_begin {rank : ι → Fin n} {w : World n ι} {t : ι} (ht : w.stage t = .program)
    (c : Call) : Move rank w (w.begin rank t c) := by
  cases c with
  | send dst buf len =>
      rw [World.begin]
      split
      · exact .refuse t _ ht
      · rename_i h
        have hmove := @Move.send _ _ _ rank w t ⟨dst.toNat, lt_of_not_outOfRange h⟩ buf len ht
        rwa [toNat_cast_of_not_outOfRange h] at hmove
  | recv src buf len =>
      rw [World.begin]
      split
      · exact .refuse t _ ht
      · rename_i h
        have hmove := @Move.recv _ _ _ rank w t ⟨src.toNat, lt_of_not_outOfRange h⟩ buf len ht
        rwa [toNat_cast_of_not_outOfRange h] at hmove

theorem move_of_next [Fintype ι] {rank : ι → Fin n} {w w' : World n ι} {t : ι}
    (h : w.next t = some w') : Move rank w w' := by
  cases ht : w.stage t with
  | program => simp [World.next, ht] at h
  | copyIn dst idx buf len =>
      simp only [World.next, ht, Option.some.injEq] at h
      exact h ▸ .copyIn t dst idx buf len ht
  | lock idx bytes =>
      simp only [World.next, ht, Option.ite_none_right_eq_some, Option.some.injEq] at h
      exact h.2 ▸ .lock t idx bytes ht h.1
  | push idx bytes =>
      simp only [World.next, ht, Option.some.injEq] at h
      exact h ▸ .push t idx bytes ht
  | unlock idx =>
      simp only [World.next, ht, Option.some.injEq] at h
      exact h ▸ .unlock t idx ht
  | notify idx =>
      simp only [World.next, ht, Option.ite_none_left_eq_some, Option.some.injEq, not_exists,
        Bool.not_eq_true] at h
      exact h.2 ▸ .nobody t idx ht h.1
  | enter c b =>
      simp only [World.next, ht, Option.ite_none_right_eq_some, Option.some.injEq] at h
      exact h.2 ▸ .enter t c b ht h.1
  | test c b =>
      cases hq : w.grid.q c.idx with
      | nil =>
          simp only [World.next, ht, hq, Option.some.injEq] at h
          exact h ▸ .empty t c b ht hq
      | cons bytes rest =>
          simp only [World.next, ht, hq, Option.some.injEq] at h
          exact h ▸ .filled t c b ht (by simp [hq])
  | wait c b =>
      simp only [World.next, ht, Option.some.injEq] at h
      exact h ▸ .wait t c b ht
  | asleep c b =>
      simp only [World.next, ht, Option.some.injEq] at h
      exact h ▸ .wake t c b ht
  | take c b =>
      cases hq : w.grid.q c.idx with
      | nil => simp [World.next, ht, hq] at h
      | cons bytes rest =>
          simp only [World.next, ht, hq, Option.some.injEq] at h
          exact h ▸ .take t c b bytes rest ht hq
  | leave c bytes =>
      simp only [World.next, ht, Option.some.injEq] at h
      exact h ▸ .leave t c bytes ht
  | copyOut c bytes =>
      simp only [World.next, ht, Option.some.injEq] at h
      exact h ▸ .copyOut t c bytes ht

theorem move_of_step [Fintype ι] {rank : ι → Fin n} {w w' : World n ι} {a : Action ι}
    (h : step rank w a = some w') : Move rank w w' := by
  cases a with
  | store a bytes =>
      simp only [step, Option.some.injEq] at h
      exact h ▸ .store a bytes
  | call t c =>
      simp only [step] at h
      split at h
      · rename_i ht
        cases h
        exact move_of_begin ht c
      · cases h
  | next t => exact move_of_next h
  | notifyOne t u =>
      simp only [step] at h
      split at h
      · rename_i idx ht
        simp only [Option.ite_none_right_eq_some, Option.some.injEq] at h
        obtain ⟨c, hu, hidx⟩ := sleepsOn_eq_true.mp h.1
        have hmove := @Move.rouse _ _ _ rank w t u idx c ht hu hidx
        rwa [← h.2, hu]
      · cases h

end SystemsPrep.InProc.Threads
