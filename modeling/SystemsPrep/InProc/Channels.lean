import SystemsPrep.Base.Family
import SystemsPrep.InProc.Threads

/-!
The channels between ranks, with one thread for each rank.

What a rank has taken from another, what lies on their queue, and what the sender
has copied but not pushed yet, are together the messages sent so far, in order. The
index that the sender computes and the one that the receiver computes name the same
queue, and no other pair of ranks has it.
-/

namespace SystemsPrep.InProc.Threads

open Base

variable {n : ℕ}

def Stage.Fits (r : Fin n) : Stage n → Prop
  | .copyIn dst idx _ _ => idx = r * n + dst
  | .lock idx _ | .push idx _ => ∃ dst : Fin n, idx = r * n + dst
  | .enter c _ | .test c _ | .wait c _ | .asleep c _ | .take c _ => c.idx = c.src * n + r
  | _ => True

def Stage.inHand (idx : ℕ) : Stage n → List (List Byte)
  | .lock i bytes | .push i bytes => if i = idx then [bytes] else []
  | _ => []

/-- The message that a thread has taken, in a `recv` that has not ended. -/
def Stage.taken : Stage n → List (Fin n × List Byte)
  | .leave c bytes | .copyOut c bytes => [(c.src, bytes)]
  | _ => []

/-- The buffer is filled with the message if the lengths agree; otherwise the call
throws and the memory stays as it was. -/
structure RecvRecord.Exact (e : RecvRecord n) : Prop where
  filled : e.bytes.length = e.call.len →
    e.outcome = .received e.bytes ∧ e.after = e.before.write e.call.buf e.bytes
  mismatch : e.bytes.length ≠ e.call.len →
    e.outcome = .threw (.runtimeError "recv size mismatch") ∧ e.after = e.before

def RecvRecord.source (e : RecvRecord n) : Fin n × List Byte := (e.call.src, e.bytes)

structure Channels (w : World n (Fin n)) : Prop where
  fits : ∀ r, (w.stage r).Fits r
  fifo : ∀ src dst, (w.history dst).takenFrom src ++ w.grid.q (src * n + dst) ++
    (w.stage src).inHand (src * n + dst) = (w.history src).sentTo dst
  ended : ∀ r, (w.history r).recvs.map RecvRecord.source ++ (w.stage r).taken =
    (w.history r).takes
  exact : ∀ r, ∀ e ∈ (w.history r).recvs, e.Exact

theorem channels_start (mem : Mem) : Channels (World.start mem : World n (Fin n)) where
  fits _ := trivial
  fifo _ _ := rfl
  ended _ := rfl
  exact _ _ he := absurd he List.not_mem_nil

/-! ### Histories -/

theorem sentTo_send (x : History n) (e : SendRecord n) (dst : Fin n) :
    (x.send e).sentTo dst = x.sentTo dst ++ if e.dst = dst then [e.message] else [] := by
  by_cases h : e.dst = dst
  · simp [History.send, History.sentTo, h]
  · simp [History.send, History.sentTo, h]

theorem takenFrom_take (x : History n) (src src' : Fin n) (bytes : List Byte) :
    (x.take src bytes).takenFrom src' =
      x.takenFrom src' ++ if src = src' then [bytes] else [] := by
  by_cases h : src = src'
  · simp [History.take, History.takenFrom, h]
  · simp [History.take, History.takenFrom, h]

structure History.Same (x y : History n) : Prop where
  sends : x.sends = y.sends
  takes : x.takes = y.takes
  recvs : x.recvs = y.recvs

/-! ### Steps -/

variable {w w' : World n (Fin n)} {t : Fin n} {s z : Stage n} {x : History n}

theorem Channels.fits_of (hc : Channels w) (ht : w.stage t = s) : s.Fits t := ht ▸ hc.fits t

theorem Channels.fits_update (hc : Channels w) (hfits : s.Fits t) (r : Fin n) :
    (Function.update w.stage t s r).Fits r :=
  (Function.forall_update_iff w.stage fun r s => s.Fits r).mpr
    ⟨hfits, fun r _ => hc.fits r⟩ r

theorem Channels.exact_update (hc : Channels w) (hrecvs : x.recvs = (w.history t).recvs) :
    ∀ r, ∀ e ∈ (Function.update w.history t x r).recvs, e.Exact := by
  intro r e he
  rw [apply_update_eq History.recvs hrecvs] at he
  exact hc.exact r e he

theorem Channels.setStage (hc : Channels w) (ht : w.stage t = s)
    (hstage : w'.stage = Function.update w.stage t z)
    (hhistory : w'.history = Function.update w.history t x) (hsame : x.Same (w.history t))
    (hgrid : w'.grid = w.grid) (hfits : s.Fits t → z.Fits t)
    (hhand : ∀ idx, z.inHand idx = s.inHand idx)
    (htaken : z.taken = s.taken) : Channels w' := by
  subst ht
  refine ⟨fun r => ?_, fun src dst => ?_, fun r => ?_, hhistory ▸ hc.exact_update hsame.recvs⟩
  · rw [hstage]
    exact hc.fits_update (hfits (hc.fits t)) r
  · rw [hstage, hhistory, hgrid, apply_update_eq (Stage.inHand _) (hhand _),
      History.takenFrom, History.sentTo, apply_update_eq History.takes hsame.takes,
      apply_update_eq History.sends hsame.sends]
    exact hc.fifo src dst
  · rw [hstage, hhistory, apply_update_eq Stage.taken htaken,
      apply_update_eq History.recvs hsame.recvs, apply_update_eq History.takes hsame.takes]
    exact hc.ended r

theorem Channels.stageOnly (hc : Channels w) (ht : w.stage t = s)
    (hstage : w'.stage = Function.update w.stage t z) (hhistory : w'.history = w.history)
    (hgrid : w'.grid = w.grid) (hfits : s.Fits t → z.Fits t)
    (hhand : ∀ idx, z.inHand idx = s.inHand idx)
    (htaken : z.taken = s.taken) : Channels w' :=
  hc.setStage ht hstage (hhistory.trans (Function.update_eq_self t _).symm) ⟨rfl, rfl, rfl⟩
    hgrid hfits hhand htaken

theorem Channels.finish (hc : Channels w) (ht : w.stage t = s) (o : Outcome)
    (hhand : ∀ idx, s.inHand idx = []) (htaken : s.taken = []) : Channels (w.finish t o) :=
  hc.setStage (z := .program) ht rfl rfl ⟨rfl, rfl, rfl⟩ rfl (fun _ => trivial)
    (fun idx => (hhand idx).symm) htaken.symm

/-- The copy of the buffer is a new message in the sender's hand. -/
theorem Channels.copyIn (hc : Channels w) {dst : Fin n} {idx len : ℕ} {buf : Addr}
    (ht : w.stage t = .copyIn dst idx buf len) :
    Channels ((w.setStage t (.lock idx (w.mem.read buf len))).setHistory t
      ((w.history t).send ⟨dst, buf, len, w.mem⟩)) := by
  have hidx : idx = t * n + dst := hc.fits_of ht
  refine ⟨hc.fits_update ⟨dst, hidx⟩, fun src d => ?_, fun r => ?_, hc.exact_update rfl⟩
  · have hfifo := hc.fifo src d
    simp only [World.setHistory, World.setStage, History.takenFrom]
    rw [apply_update_eq History.takes (by rfl)]
    by_cases hsrc : src = t
    · subst hsrc
      have hnew : (idx = src * n + d) = (dst = d) := by
        rw [hidx, Nat.add_left_cancel_iff, Fin.val_inj]
      rw [ht] at hfifo
      simp only [Function.update_self, sentTo_send, Stage.inHand, hnew, ← hfifo,
        List.append_nil, SendRecord.message]
      rfl
    · simp only [Function.update_of_ne hsrc]
      exact hfifo
  · simp only [World.setHistory, World.setStage]
    rw [apply_update_eq Stage.taken (by rw [ht]; rfl), apply_update_eq History.recvs (by rfl),
      apply_update_eq History.takes (by rfl)]
    exact hc.ended r

/-- The push moves the message from the sender's hand to the queue of the channel. -/
theorem Channels.push (hc : Channels w) {idx : ℕ} {bytes : List Byte}
    (ht : w.stage t = .push idx bytes) :
    Channels { w.setStage t (.unlock idx) with grid := w.grid.push idx bytes } := by
  obtain ⟨dst, hidx⟩ : ∃ dst : Fin n, idx = t * n + dst := hc.fits_of ht
  refine ⟨hc.fits_update trivial, fun src d => ?_, fun r => ?_, hc.exact⟩
  · have hfifo := hc.fifo src d
    simp only [World.setStage]
    by_cases hch : src * n + d = idx
    · -- the index of a queue names its sender, so the message in hand was the sender's last
      have hsrc : src = t := Fin.ext (idx_inj d.isLt dst.isLt (hch.trans hidx)).1
      subst hsrc
      rw [ht, Stage.inHand, if_pos hch.symm] at hfifo
      rw [hch] at hfifo ⊢
      rw [InProcGrid.push_q_self, Function.update_self, ← hfifo]
      simp [Stage.inHand]
    · have hhand : (Function.update w.stage t (.unlock idx) src).inHand (src * n + d) =
          (w.stage src).inHand (src * n + d) := by
        apply apply_update_eq
        simp [ht, Stage.inHand, Ne.symm hch]
      rw [hhand, InProcGrid.push_q_of_ne _ _ hch]
      exact hfifo
  · simp only [World.setStage]
    rw [apply_update_eq Stage.taken (by rw [ht]; rfl)]
    exact hc.ended r

/-- The front message of the queue goes to the receiver. -/
theorem Channels.take (hc : Channels w) {c : RecvCall n} {b : Bool} {bytes : List Byte}
    {rest : List (List Byte)} (ht : w.stage t = .take c b)
    (hq : w.grid.q c.idx = bytes :: rest) :
    Channels { (w.setStage t (.leave c bytes)).setHistory t
      ((w.history t).take c.src bytes) with grid := w.grid.pop c.idx } := by
  have hidx : c.idx = c.src * n + t := hc.fits_of ht
  refine ⟨hc.fits_update trivial, fun src d => ?_, fun r => ?_, hc.exact_update rfl⟩
  · have hfifo := hc.fifo src d
    simp only [World.setHistory, World.setStage, History.sentTo]
    rw [apply_update_eq History.sends (by rfl),
      apply_update_eq (Stage.inHand (src * n + d)) (by rw [ht]; rfl)]
    by_cases hch : src * n + d = c.idx
    · -- the front of the queue becomes the last message taken from this sender
      obtain ⟨hsrc, hd⟩ := idx_inj d.isLt t.isLt (hch.trans hidx)
      obtain rfl := Fin.ext hsrc
      obtain rfl := Fin.ext hd
      rw [hch, hq] at hfifo
      rw [hch, Function.update_self, takenFrom_take, if_pos rfl, InProcGrid.pop_q_self, hq]
      simpa [History.sentTo] using hfifo
    · have htaken : (Function.update w.history t ((w.history t).take c.src bytes) d).takenFrom
          src = (w.history d).takenFrom src := by
        by_cases hd : d = t
        · subst hd
          have hsrc : c.src ≠ src := by
            rintro rfl
            exact hch hidx.symm
          rw [Function.update_self, takenFrom_take, if_neg hsrc, List.append_nil]
        · rw [Function.update_of_ne hd]
      rw [htaken, InProcGrid.pop_q_of_ne _ hch]
      exact hfifo
  · have hended := hc.ended r
    simp only [World.setHistory, World.setStage]
    rw [apply_update_eq History.recvs (by rfl)]
    by_cases hr : r = t
    · subst hr
      simp only [ht, Stage.taken, List.append_nil] at hended
      rw [Function.update_self, Function.update_self, hended]
      rfl
    · rw [Function.update_of_ne hr, Function.update_of_ne hr]
      exact hended

theorem exact_copyOut (c : RecvCall n) (bytes : List Byte) (mem : Mem) :
    RecvRecord.Exact ⟨c, bytes, mem,
      if bytes.length ≠ c.len then mem else mem.write c.buf bytes,
      if bytes.length ≠ c.len then .threw (.runtimeError "recv size mismatch")
        else .received bytes⟩ where
  filled h := ⟨if_neg (not_not.mpr h), if_neg (not_not.mpr h)⟩
  mismatch h := ⟨if_pos h, if_pos h⟩

theorem Channels.copyOut (hc : Channels w) {c : RecvCall n} {bytes : List Byte}
    (ht : w.stage t = .copyOut c bytes) : Channels (w.copyOut t c bytes) := by
  refine ⟨hc.fits_update (s := .program) trivial, fun src d => ?_, fun r => ?_,
    fun r e he => ?_⟩
  · simp only [World.copyOut, World.finish, World.setHistory, World.setStage, History.sentTo,
      History.takenFrom]
    rw [apply_update_eq History.sends (by rfl), apply_update_eq History.takes (by rfl),
      apply_update_eq (Stage.inHand (src * n + d)) (by rw [ht]; rfl)]
    exact hc.fifo src d
  · have hended := hc.ended r
    simp only [World.copyOut, World.finish, World.setHistory, World.setStage]
    rw [apply_update_eq History.takes (by rfl)]
    by_cases hr : r = t
    · subst hr
      rw [ht] at hended
      rw [Function.update_self, Function.update_self, ← hended]
      simp [History.recv, History.finish, Stage.taken, RecvRecord.source]
    · rw [Function.update_of_ne hr, Function.update_of_ne hr]
      exact hended
  · simp only [World.copyOut] at he
    by_cases hr : r = t
    · subst hr
      rw [Function.update_self, History.recv, List.mem_append, List.mem_singleton] at he
      rcases he with he | rfl
      · exact hc.exact r e he
      · exact exact_copyOut c bytes w.mem
    · rw [Function.update_of_ne hr] at he
      exact hc.exact r e he

theorem channels_move (hn : n * n < 2 ^ 31) (hc : Channels w) (hmove : Move id w w') :
    Channels w' := by
  cases hmove with
  | store a bytes => exact ⟨hc.fits, hc.fifo, hc.ended, hc.exact⟩
  | refuse t e ht => exact hc.finish ht _ (fun _ => rfl) rfl
  | send t dst buf len ht =>
      have hidx : (transport (id t)).sendIdx (dst : ℕ) = t * n + dst := sendIdx_transport hn t dst
      exact hc.stageOnly ht rfl rfl rfl (fun _ => hidx) (fun _ => rfl) rfl
  | recv t src buf len ht =>
      have hidx : (transport (id t)).recvIdx (src : ℕ) = src * n + t := recvIdx_transport hn t src
      refine hc.stageOnly ht rfl rfl rfl (fun _ => ?_) (fun _ => rfl) rfl
      rw [hidx, Stage.Fits]
  | copyIn t dst idx buf len ht => exact hc.copyIn ht
  | lock t idx bytes ht hmu =>
      exact hc.stageOnly (z := .push idx bytes) ht rfl rfl rfl id (fun _ => rfl) rfl
  | push t idx bytes ht => exact hc.push ht
  | unlock t idx ht =>
      exact hc.stageOnly (z := .notify idx) ht rfl rfl rfl (fun _ => trivial) (fun _ => rfl) rfl
  | nobody t idx ht hnone => exact hc.finish ht _ (fun _ => rfl) rfl
  | rouse t u idx c ht hu hidx =>
      have hroused : Channels (w.setStage u (.asleep c true)) :=
        hc.stageOnly hu rfl rfl rfl id (fun _ => rfl) rfl
      have htu : t ≠ u := by
        rintro rfl
        rw [ht] at hu
        cases hu
      have ht' : (w.setStage u (.asleep c true)).stage t = .notify idx := by
        rw [World.setStage_stage, Function.update_of_ne htu, ht]
      exact hroused.finish ht' _ (fun _ => rfl) rfl
  | enter t c b ht hmu =>
      exact hc.stageOnly (z := .test c b) ht rfl rfl rfl id (fun _ => rfl) rfl
  | empty t c b ht hq =>
      exact hc.stageOnly (z := .wait c b) ht rfl rfl rfl id (fun _ => rfl) rfl
  | filled t c b ht hq =>
      exact hc.stageOnly (z := .take c b) ht rfl rfl rfl id (fun _ => rfl) rfl
  | wait t c b ht =>
      exact hc.stageOnly (z := .asleep c false) ht rfl rfl rfl id (fun _ => rfl) rfl
  | wake t c b ht =>
      exact hc.stageOnly (z := .enter c b) ht rfl rfl rfl id (fun _ => rfl) rfl
  | take t c b bytes rest ht hq => exact hc.take ht hq
  | leave t c bytes ht =>
      exact hc.stageOnly (z := .copyOut c bytes) ht rfl rfl rfl (fun _ => trivial)
        (fun _ => rfl) rfl
  | copyOut t c bytes ht => exact hc.copyOut ht

theorem channels_exec (hn : n * n < 2 ^ 31) {mem : Mem} {as : List (Action (Fin n))}
    (h : exec (step id) (World.start mem) as = some w) : Channels w :=
  exec_invariant (fun _ _ _ hc hs => channels_move hn hc (move_of_step hs)) h (channels_start mem)

/-! ### What is seen from outside -/

/-- What rank `r` copies out of its buffer in this step. -/
def noteSend (r : Fin n) (w : World n (Fin n)) (a : Action (Fin n)) (_ : World n (Fin n)) :
    List (SendRecord n) :=
  match a, w.stage r with
  | .next t, .copyIn dst _ buf len => if t = r then [⟨dst, buf, len, w.mem⟩] else []
  | _, _ => []

/-- The `recv` of rank `r` that ends in this step: the memory of the process before and after
it, and the outcome that it adds. -/
def noteRecv (r : Fin n) (w : World n (Fin n)) (a : Action (Fin n)) (w' : World n (Fin n)) :
    List (RecvRecord n) :=
  match a, w.stage r with
  | .next t, .copyOut c bytes =>
      if t = r then
        ((w'.history r).outcomes.drop (w.history r).outcomes.length).map fun o =>
          ⟨c, bytes, w.mem, w'.mem, o⟩
      else []
  | _, _ => []

def sent (mem : Mem) (as : List (Action (Fin n))) (r : Fin n) : List (SendRecord n) :=
  record (step id) (noteSend r) (World.start mem) as

def received (mem : Mem) (as : List (Action (Fin n))) (r : Fin n) : List (RecvRecord n) :=
  record (step id) (noteRecv r) (World.start mem) as

/-- Apart from the ends of the receives, only stores change the memory. -/
def MemoryKept (w : World n (Fin n)) (a : Action (Fin n)) (w' : World n (Fin n)) : Prop :=
  match a with
  | .store x bytes => w'.mem = w.mem.write x bytes
  | .next r => noteRecv r w a w' = [] → w'.mem = w.mem
  | .call _ _ | .notifyOne _ _ => w'.mem = w.mem

section Notes

variable {r : Fin n} {a : Action (Fin n)}

/-- The history of a rank is what is seen of it in its steps. -/
structure Noted (r : Fin n) (w : World n (Fin n)) (a : Action (Fin n)) (w' : World n (Fin n)) :
    Prop where
  sends : (w'.history r).sends = (w.history r).sends ++ noteSend r w a w'
  recvs : (w'.history r).recvs = (w.history r).recvs ++ noteRecv r w a w'

structure History.SameCopies (x y : History n) : Prop where
  sends : x.sends = y.sends
  recvs : x.recvs = y.recvs

theorem Noted.of_same (hsame : (w'.history r).SameCopies (w.history r))
    (hsend : noteSend r w a w' = []) (hrecv : noteRecv r w a w' = []) : Noted r w a w' :=
  ⟨by rw [hsame.sends, hsend, List.append_nil], by rw [hsame.recvs, hrecv, List.append_nil]⟩

theorem sameCopies_finish (w : World n (Fin n)) (t : Fin n) (o : Outcome) :
    ((w.finish t o).history r).SameCopies (w.history r) where
  sends := apply_update_eq History.sends (by rfl) r
  recvs := apply_update_eq History.recvs (by rfl) r

theorem sameCopies_begin (w : World n (Fin n)) (t : Fin n) (c : Call) :
    ((w.begin id t c).history r).SameCopies (w.history r) ∧ (w.begin id t c).mem = w.mem := by
  cases c with
  | send dst buf len | recv src buf len =>
      rw [World.begin]
      split
      · exact ⟨sameCopies_finish .., rfl⟩
      · exact ⟨⟨rfl, rfl⟩, rfl⟩

def Stage.Silent : Stage n → Prop
  | .copyIn _ _ _ _ | .copyOut _ _ => False
  | _ => True

theorem notes_eq_nil (h : t = r → (w.stage t).Silent) :
    noteSend r w (.next t) w' = [] ∧ noteRecv r w (.next t) w' = [] := by
  constructor
  · unfold noteSend
    split <;> rename_i ha hr
    · cases ha
      exact if_neg fun htr => by simpa [htr, hr, Stage.Silent] using h htr
    · rfl
  · unfold noteRecv
    split <;> rename_i ha hr
    · cases ha
      exact if_neg fun htr => by simpa [htr, hr, Stage.Silent] using h htr
    · rfl

theorem Noted.of_silent (hz : (w.stage t).Silent)
    (hsame : (w'.history r).SameCopies (w.history r)) : Noted r w (.next t) w' :=
  have hnotes := notes_eq_nil fun _ => hz
  .of_same hsame hnotes.1 hnotes.2

theorem Noted.of_ne (hr : t ≠ r) (hhistory : w'.history r = w.history r) :
    Noted r w (.next t) w' :=
  have hnotes := notes_eq_nil fun htr => absurd htr hr
  .of_same (by rw [hhistory]; exact ⟨rfl, rfl⟩) hnotes.1 hnotes.2

theorem noted_copyIn {dst : Fin n} {idx len : ℕ} {buf : Addr}
    (ht : w.stage t = .copyIn dst idx buf len) :
    Noted r w (.next t) ((w.setStage t (.lock idx (w.mem.read buf len))).setHistory t
      ((w.history t).send ⟨dst, buf, len, w.mem⟩)) := by
  by_cases hr : t = r
  · subst hr
    constructor
    · simp [noteSend, ht, World.setHistory, World.setStage, History.send]
    · simp [noteRecv, ht, World.setHistory, World.setStage, History.send]
  · exact .of_ne hr (Function.update_of_ne (Ne.symm hr) ..)

theorem noteRecv_copyOut {c : RecvCall n} {bytes : List Byte} (ht : w.stage t = .copyOut c bytes) :
    noteRecv t w (.next t) (w.copyOut t c bytes) =
      [⟨c, bytes, w.mem, (w.copyOut t c bytes).mem,
        if bytes.length ≠ c.len then .threw (.runtimeError "recv size mismatch")
          else .received bytes⟩] := by
  simp [noteRecv, ht, World.copyOut, History.recv, History.finish]

theorem noted_copyOut {c : RecvCall n} {bytes : List Byte} (ht : w.stage t = .copyOut c bytes) :
    Noted r w (.next t) (w.copyOut t c bytes) := by
  by_cases hr : t = r
  · subst hr
    constructor
    · simp [noteSend, ht, World.copyOut, History.recv, History.finish]
    · rw [noteRecv_copyOut ht]
      simp [World.copyOut, History.recv, History.finish]
  · exact .of_ne hr (Function.update_of_ne (Ne.symm hr) ..)

/-- What a step inside a call adds to the histories. -/
theorem noted_next (hs : w.next t = some w') : Noted r w (.next t) w' := by
  cases hstage : w.stage t with
  | program => simp [World.next, hstage] at hs
  | copyIn dst idx buf len =>
      simp only [World.next, hstage, Option.some.injEq] at hs
      exact hs ▸ noted_copyIn hstage
  | copyOut c bytes =>
      simp only [World.next, hstage, Option.some.injEq] at hs
      exact hs ▸ noted_copyOut hstage
  | lock | enter =>
      simp only [World.next, hstage, Option.ite_none_right_eq_some, Option.some.injEq] at hs
      obtain ⟨-, rfl⟩ := hs
      exact .of_silent (by rw [hstage]; trivial) ⟨rfl, rfl⟩
  | push | unlock | wait | asleep | leave =>
      simp only [World.next, hstage, Option.some.injEq] at hs
      subst hs
      exact .of_silent (by rw [hstage]; trivial) ⟨rfl, rfl⟩
  | notify idx =>
      simp only [World.next, hstage, Option.ite_none_left_eq_some, Option.some.injEq] at hs
      obtain ⟨-, rfl⟩ := hs
      exact .of_silent (by rw [hstage]; trivial) (sameCopies_finish ..)
  | test c b =>
      simp only [World.next, hstage] at hs
      split at hs <;> cases hs <;> exact .of_silent (by rw [hstage]; trivial) ⟨rfl, rfl⟩
  | take c b =>
      simp only [World.next, hstage] at hs
      split at hs <;> cases hs
      exact .of_silent (by rw [hstage]; trivial)
        ⟨apply_update_eq History.sends (by rfl) r, apply_update_eq History.recvs (by rfl) r⟩

/-- What a step inside a call does to the memory. -/
theorem memoryKept_next (hs : w.next t = some w') : MemoryKept w (.next t) w' := by
  intro hnone
  cases hstage : w.stage t with
  | copyOut c bytes =>
      simp only [World.next, hstage, Option.some.injEq] at hs
      rw [← hs, noteRecv_copyOut hstage] at hnone
      cases hnone
  | program => simp [World.next, hstage] at hs
  | lock | enter =>
      simp only [World.next, hstage, Option.ite_none_right_eq_some, Option.some.injEq] at hs
      obtain ⟨-, rfl⟩ := hs
      rfl
  | notify idx =>
      simp only [World.next, hstage, Option.ite_none_left_eq_some, Option.some.injEq] at hs
      obtain ⟨-, rfl⟩ := hs
      rfl
  | test | take =>
      simp only [World.next, hstage] at hs
      split at hs <;> cases hs <;> rfl
  | copyIn | push | unlock | wait | asleep | leave =>
      simp only [World.next, hstage, Option.some.injEq] at hs
      subst hs
      rfl

theorem noted_step (hs : step id w a = some w') : Noted r w a w' := by
  cases a with
  | store x bytes =>
      cases hs
      exact .of_same ⟨rfl, rfl⟩ rfl rfl
  | call t c =>
      simp only [step] at hs
      split at hs <;> cases hs
      exact .of_same (sameCopies_begin w t c).1 rfl rfl
  | next t => exact noted_next hs
  | notifyOne t u =>
      simp only [step] at hs
      split at hs
      · simp only [Option.ite_none_right_eq_some, Option.some.injEq] at hs
        obtain ⟨-, rfl⟩ := hs
        exact .of_same (sameCopies_finish (w.setStage u _) t .sent) rfl rfl
      · cases hs

theorem memoryKept_step (hs : step id w a = some w') : MemoryKept w a w' := by
  cases a with
  | store x bytes =>
      cases hs
      rfl
  | call t c =>
      simp only [step] at hs
      split at hs <;> cases hs
      exact (sameCopies_begin (r := t) w t c).2
  | next t => exact memoryKept_next hs
  | notifyOne t u =>
      simp only [step] at hs
      split at hs
      · simp only [Option.ite_none_right_eq_some, Option.some.injEq] at hs
        obtain ⟨-, rfl⟩ := hs
        rfl
      · cases hs

theorem noted_exec {mem : Mem} {as : List (Action (Fin n))}
    (h : exec (step id) (World.start mem) as = some w) (r : Fin n) :
    (w.history r).sends = sent mem as r ∧ (w.history r).recvs = received mem as r := by
  constructor
  · exact record_invariant (I := fun w es => (w.history r).sends = es)
      (fun _ _ _ _ hi hs => by rw [(noted_step (r := r) hs).sends, hi]) h rfl
  · exact record_invariant (I := fun w es => (w.history r).recvs = es)
      (fun _ _ _ _ hi hs => by rw [(noted_step (r := r) hs).recvs, hi]) h rfl

end Notes

/-- The call throws at once, and changes no channel and no memory. -/
def Refused (w : World n (Fin n)) (r : Fin n) (c : Call) (e : Exception) : Prop :=
  ∃ w', step id w (.call r c) = some w' ∧
    (w'.history r).outcomes = (w.history r).outcomes ++ [.threw e] ∧
    w'.grid = w.grid ∧ w'.mem = w.mem ∧
    ∀ u, (w'.history u).sends = (w.history u).sends ∧ (w'.history u).takes = (w.history u).takes

theorem refused_of_step {r : Fin n} {c : Call} {e : Exception}
    (h : step id w (.call r c) = some (w.finish r (.threw e))) : Refused w r c e := by
  refine ⟨_, h, ?_, rfl, rfl, fun u => ⟨?_, ?_⟩⟩
  · simp [World.finish, World.setHistory, History.finish]
  · exact apply_update_eq History.sends (by rfl) u
  · exact apply_update_eq History.takes (by rfl) u

/-- **Point-to-point channels.** Let each of `n` ranks run one thread, with any calls, on
one grid whose indices fit an `int`. In every state of every interleaving:
what a rank has taken from another is, in order, a beginning of what that rank has
sent to it, each message with the bytes that memory held at its buffer when `send` copied it;
each message taken belongs to a `recv` that is about to end or has ended, which it did by
filling its buffer in memory if the length was the requested one, and otherwise by throwing
with memory as it was; no other step but a store changes memory;
and a call with a peer out of range throws and changes no channel. -/
theorem channels_fifo (hn : n * n < 2 ^ 31) {mem : Mem} {as : List (Action (Fin n))}
    {w : World n (Fin n)} (h : exec (step id) (World.start mem) as = some w) :
    (∀ src dst, (w.history dst).takenFrom src <+: (w.history src).sentTo dst) ∧
      (∀ r, (w.history r).sends = sent mem as r) ∧
      (∀ r, (received mem as r).map RecvRecord.source ++ (w.stage r).taken = (w.history r).takes ∧
        ∀ e ∈ received mem as r, e.Exact) ∧
      Steps (step id) MemoryKept (World.start mem) as ∧
      ∀ r peer buf len, (transport r).OutOfRange peer → w.stage r = .program →
        Refused w r (.send peer buf len) (.outOfRange "send dst") ∧
          Refused w r (.recv peer buf len) (.outOfRange "recv src") := by
  have hc := channels_exec hn h
  refine ⟨fun src dst => ?_, fun r => (noted_exec h r).1, fun r => ?_, ?_,
    fun r peer buf len hpeer hr => ⟨?_, ?_⟩⟩
  · rw [← hc.fifo, List.append_assoc]
    exact List.prefix_append _ _
  · rw [← (noted_exec h r).2]
    exact ⟨hc.ended r, hc.exact r⟩
  · exact fun _ _ _ _ _ _ hs => memoryKept_step hs
  · apply refused_of_step
    simp only [step, hr, World.begin, id, hpeer, dif_pos]
  · apply refused_of_step
    simp only [step, hr, World.begin, id, hpeer, dif_pos]

/-- Rank 0 sends one byte and overwrites its buffer before the message is on the queue;
rank 1 asks for two bytes first. -/
def lateStore : List (Action (Fin 2)) :=
  [.call 0 (.send 1 32 1), .next 0, .store 32 [9], .next 0, .next 0, .next 0, .next 0,
    .call 0 (.send 1 32 1), .next 0, .next 0, .next 0, .next 0, .next 0,
    .call 1 (.recv 0 64 2), .next 1, .next 1, .next 1, .next 1, .next 1,
    .call 1 (.recv 0 64 1), .next 1, .next 1, .next 1, .next 1, .next 1]

theorem channels_fifo_lateStore :
    ∃ w : World 2 (Fin 2), exec (step id) (World.start fun _ => 7) lateStore = some w ∧
      (w.history 1).takenFrom 0 = [[7], [9]] ∧
      (w.history 1).outcomes =
        [.threw (.runtimeError "recv size mismatch"), .received [9]] ∧
      w.mem 64 = 9 ∧
      (w.history 1).takenFrom 0 <+: (w.history 0).sentTo 1 ∧
      (∀ e ∈ received (fun _ => 7) lateStore 1, e.Exact) ∧
      Refused w 1 (.send 2 64 1) (.outOfRange "send dst") := by
  have hw : exec (step id) (World.start fun _ => 7) lateStore = some _ := rfl
  obtain ⟨hfifo, -, hreceived, -, hrefused⟩ := channels_fifo (by norm_num) hw
  exact ⟨_, hw, by decide +kernel, by decide +kernel, by decide +kernel, hfifo 0 1,
    (hreceived 1).2, (hrefused 1 2 64 1 (by decide) rfl).1⟩

end SystemsPrep.InProc.Threads
