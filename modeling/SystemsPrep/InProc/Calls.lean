import SystemsPrep.InProc.Schedule

/-!
Calls on one grid, one after the other, and what becomes of the messages.

A `recv` compares the length of the front message after it has taken it from its
queue. A peer that is out of range is refused before any queue is touched, but a
message of another length than the one asked for is gone when the exception leaves
the call, and every later message of the channel moves up.
-/

namespace SystemsPrep.InProc

open Base

variable {n : ℕ}

namespace InProcTransport

/-- `send`. -/
def send (t : InProcTransport) (g : InProcGrid) (dst : ℤ) (bytes : List Byte) :
    InProcGrid × Outcome :=
  if t.OutOfRange dst then (g, .threw (.outOfRange "send dst"))
  else (g.push (t.sendIdx dst) bytes, .sent)

/-- `recv`, or `none` if it blocks. -/
def recv (t : InProcTransport) (g : InProcGrid) (src : ℤ) (len : ℕ) :
    Option (InProcGrid × Outcome) :=
  if t.OutOfRange src then some (g, .threw (.outOfRange "recv src"))
  else
    match g.q (t.recvIdx src) with
    | [] => none
    | bytes :: _ =>
        some (g.pop (t.recvIdx src),
          if bytes.length ≠ len then .threw (.runtimeError "recv size mismatch")
          else .received bytes)

end InProcTransport

def perform (g : InProcGrid) (r : Fin n) : Call → Option (InProcGrid × Outcome)
  | .send dst bytes => some ((transport r).send g dst bytes)
  | .recv src len => (transport r).recv g src len

def callStep (g : InProcGrid) (x : Fin n × Call) : Option InProcGrid :=
  (perform g x.1 x.2).map Prod.fst

/-- What happens to a message: it enters the queue `idx`, or leaves it for the
buffer of a receiver. -/
inductive MessageEvent
  | sent (idx : ℕ) (bytes : List Byte)
  | received (idx : ℕ) (bytes : List Byte)
  deriving DecidableEq

def callNote (g : InProcGrid) (x : Fin n × Call) (_ : InProcGrid) : List MessageEvent :=
  match x.2, perform g x.1 x.2 with
  | .send dst bytes, some (_, .sent) => [.sent ((transport x.1).sendIdx dst) bytes]
  | .recv src _, some (_, .received bytes) => [.received ((transport x.1).recvIdx src) bytes]
  | _, _ => []

def sentOn (idx : ℕ) (l : List MessageEvent) : List (List Byte) :=
  l.filterMap fun
    | .sent i bytes => if i = idx then some bytes else none
    | .received _ _ => none

def receivedOn (idx : ℕ) (l : List MessageEvent) : List (List Byte) :=
  l.filterMap fun
    | .sent _ _ => none
    | .received i bytes => if i = idx then some bytes else none

/-- A `recv` meets a front message of the length it asks for. -/
def Matched (g : InProcGrid) (x : Fin n × Call) (_ : InProcGrid) : Prop :=
  match x.2 with
  | .send _ _ => True
  | .recv src len => (transport x.1).OutOfRange src ∨
      ∀ bytes ∈ (g.q ((transport x.1).recvIdx src)).head?, bytes.length = len

/-- A `recv` that throws leaves every channel as it was, so that a `recv` with the
right length obtains the message. -/
def ThrowsHarmlessly (g : InProcGrid) (x : Fin n × Call) (g' : InProcGrid) : Prop :=
  ∀ src len e, x.2 = .recv src len → perform g x.1 x.2 = some (g', .threw e) →
    (∀ idx, g'.q idx = g.q idx) ∧
    ∀ bytes ∈ (g.q ((transport x.1).recvIdx src)).head?, ¬ (transport x.1).OutOfRange src →
      ∃ g'', perform g' x.1 (.recv src bytes.length) = some (g'', .received bytes)

structure NothingLost (n : ℕ) (xs : List (Fin n × Call)) : Prop where
  throws : Steps callStep ThrowsHarmlessly (.create n) xs
  conserved : ∀ ys, ys <+: xs → ∀ g, exec callStep (.create n) ys = some g → ∀ idx,
    (sentOn idx (record callStep callNote (.create n) ys)).length =
      (receivedOn idx (record callStep callNote (.create n) ys)).length + (g.q idx).length

/-! ### One call -/

theorem recv_eq_some {t : InProcTransport} {g g' : InProcGrid} {src : ℤ} {len : ℕ} {o : Outcome}
    (h : t.recv g src len = some (g', o)) :
    (t.OutOfRange src ∧ g' = g ∧ o = .threw (.outOfRange "recv src")) ∨
      ¬ t.OutOfRange src ∧ ∃ bytes rest, g.q (t.recvIdx src) = bytes :: rest ∧
        g' = g.pop (t.recvIdx src) ∧
        (bytes.length = len ∧ o = .received bytes ∨
          bytes.length ≠ len ∧ o = .threw (.runtimeError "recv size mismatch")) := by
  unfold InProcTransport.recv at h
  split at h <;> rename_i hrange
  · cases h
    exact Or.inl ⟨hrange, rfl, rfl⟩
  · split at h <;> rename_i hq
    · cases h
    · rename_i bytes rest
      cases h
      refine Or.inr ⟨hrange, bytes, rest, hq, rfl, ?_⟩
      by_cases hlen : bytes.length = len
      · exact Or.inl ⟨hlen, if_neg (not_not.mpr hlen)⟩
      · exact Or.inr ⟨hlen, if_pos hlen⟩

/-- Everything sent on a channel has been copied out or is in the queue, in order. -/
def Accounted (g : InProcGrid) (l : List MessageEvent) : Prop :=
  ∀ idx, sentOn idx l = receivedOn idx l ++ g.q idx

@[simp] theorem sentOn_append (idx : ℕ) (l l' : List MessageEvent) :
    sentOn idx (l ++ l') = sentOn idx l ++ sentOn idx l' := List.filterMap_append

@[simp] theorem receivedOn_append (idx : ℕ) (l l' : List MessageEvent) :
    receivedOn idx (l ++ l') = receivedOn idx l ++ receivedOn idx l' := List.filterMap_append

theorem Accounted.append {g g' : InProcGrid} {l l' : List MessageEvent} (h : Accounted g l)
    (hnew : ∀ idx, g.q idx ++ sentOn idx l' = receivedOn idx l' ++ g'.q idx) :
    Accounted g' (l ++ l') := by
  intro idx
  calc sentOn idx (l ++ l')
      = receivedOn idx l ++ (g.q idx ++ sentOn idx l') := by
        rw [sentOn_append, h idx, List.append_assoc]
    _ = receivedOn idx (l ++ l') ++ g'.q idx := by
        rw [hnew idx, receivedOn_append, List.append_assoc]

theorem Accounted.push {g : InProcGrid} {l : List MessageEvent} (h : Accounted g l) (i : ℕ)
    (bytes : List Byte) : Accounted (g.push i bytes) (l ++ [.sent i bytes]) := by
  refine h.append fun idx => ?_
  by_cases hi : idx = i
  · subst hi
    simp [sentOn, receivedOn]
  · simp [sentOn, receivedOn, g.push_q_of_ne bytes hi, Ne.symm hi]

theorem Accounted.pop {g : InProcGrid} {l : List MessageEvent} (h : Accounted g l) {i : ℕ}
    {bytes : List Byte} {rest : List (List Byte)} (hq : g.q i = bytes :: rest) :
    Accounted (g.pop i) (l ++ [.received i bytes]) := by
  refine h.append fun idx => ?_
  by_cases hi : idx = i
  · subst hi
    simp [sentOn, receivedOn, hq]
  · simp [sentOn, receivedOn, g.pop_q_of_ne hi, Ne.symm hi]

theorem accounted_step {g g' : InProcGrid} {l : List MessageEvent} {x : Fin n × Call}
    (hm : Matched g x g') (h : Accounted g l) (hs : callStep g x = some g') :
    Accounted g' (l ++ callNote g x g') := by
  obtain ⟨⟨_, o⟩, hperform, rfl⟩ := Option.map_eq_some_iff.mp hs
  obtain ⟨r, c⟩ := x
  cases c with
  | send dst bytes =>
      simp only [perform, InProcTransport.send, Option.some.injEq] at hperform
      split at hperform <;> rename_i hrange <;> cases hperform
      · simpa [callNote, perform, InProcTransport.send, hrange] using h
      · simpa [callNote, perform, InProcTransport.send, hrange] using h.push _ bytes
  | recv src len =>
      rcases recv_eq_some hperform with ⟨hrange, rfl, rfl⟩ | ⟨hrange, bytes, rest, hq, rfl, hout⟩
      · simpa [callNote, hperform] using h
      · have hlen : bytes.length = len := hm.resolve_left hrange bytes (by rw [hq]; rfl)
        obtain ⟨-, rfl⟩ := hout.resolve_right fun h => h.1 hlen
        simpa [callNote, hperform] using h.pop hq

/-- A `recv` that throws although it met a message of the right length did not
reach a channel. -/
theorem throwsHarmlessly_of_matched {g g' : InProcGrid} {x : Fin n × Call}
    (hm : Matched g x g') : ThrowsHarmlessly g x g' := by
  obtain ⟨r, c⟩ := x
  rintro src len e rfl hperform
  rcases recv_eq_some hperform with ⟨hrange, rfl, -⟩ | ⟨hrange, bytes, rest, hq, rfl, hout⟩
  · exact ⟨fun _ => rfl, fun _ _ hin => absurd hrange hin⟩
  · have hlen : bytes.length = len := hm.resolve_left hrange bytes (by rw [hq]; rfl)
    rcases hout with ⟨-, hreceived⟩ | ⟨hne, -⟩
    · cases hreceived
    · exact absurd hlen hne

/-- A `recv` of another length takes a message away. -/
theorem matched_of_throwsHarmlessly {g g' : InProcGrid} {x : Fin n × Call}
    (h : ThrowsHarmlessly g x g') (hs : callStep g x = some g') : Matched g x g' := by
  obtain ⟨⟨_, o⟩, hperform, rfl⟩ := Option.map_eq_some_iff.mp hs
  obtain ⟨r, c⟩ := x
  cases c with
  | send dst bytes => trivial
  | recv src len =>
      rcases recv_eq_some hperform with ⟨hrange, -, -⟩ | ⟨hrange, bytes, rest, hq, rfl, hout⟩
      · exact Or.inl hrange
      · rcases hout with ⟨hlen, -⟩ | ⟨hlen, rfl⟩
        · refine Or.inr fun front hfront => ?_
          rw [hq, List.head?_cons, Option.mem_some_iff] at hfront
          exact hfront ▸ hlen
        · have hsame := (h src len _ rfl hperform).1 ((transport r).recvIdx src)
          rw [InProcGrid.pop_q_self, hq, List.tail_cons] at hsame
          exact absurd (congrArg List.length hsame) (by simp)

/-! ### The steps of one call -/

/-- A rank that makes a call and is left alone ends it as `perform` says. -/
theorem exec_perform {σ : Fin n → Type*} {P : (r : Fin n) → RankProgram (σ r)} {w : World n σ}
    {r : Fin n} {s : σ r} {c : Call} {g' : InProcGrid} {o : Outcome}
    (hstage : (w.ranks r).stage = .program s) (hcall : (P r).call s = some c)
    (h : perform w.grid r c = some (g', o)) :
    ∃ k, exec (step P) w (List.replicate k r) =
      some { w.setRank r ((w.ranks r).finish (P r) s o) with grid := g' } := by
  cases c with
  | send dst bytes =>
      simp only [perform, InProcTransport.send, Option.some.injEq] at h
      split at h <;> rename_i hrange <;> cases h
      · exact ⟨1, by simp [exec, step, hstage, hcall, Rank.enter, hrange, World.setRank]⟩
      · have hdst : ((dst.toNat : ℕ) : ℤ) = dst := by
          simp only [InProcTransport.OutOfRange, not_or] at hrange
          omega
        exact ⟨2, by simp [exec, step, hstage, hcall, Rank.enter, hrange, World.setRank,
          Rank.finish, hdst]⟩
  | recv src len =>
      rcases recv_eq_some h with ⟨hrange, rfl, rfl⟩ | ⟨hrange, bytes, rest, hq, rfl, hout⟩
      · exact ⟨1, by simp [exec, step, hstage, hcall, Rank.enter, hrange, World.setRank]⟩
      · have hsrc : ((src.toNat : ℕ) : ℤ) = src := by
          simp only [InProcTransport.OutOfRange, not_or] at hrange
          omega
        refine ⟨3, ?_⟩
        rcases hout with ⟨hlen, rfl⟩ | ⟨hlen, rfl⟩
        all_goals
          simp [exec, step, hstage, hcall, Rank.enter, hrange, World.setRank, Rank.finish,
            Rank.copyOut, hsrc, hq, hlen]

/-! ### Sequences of calls -/

theorem accounted_create (n : ℤ) : Accounted (.create n) [] := fun _ => rfl

/-- **No message gets lost exactly when every `recv` from a rank meets a message of
the length it asks for.** -/
theorem nothingLost_iff_matched (n : ℕ) (xs : List (Fin n × Call)) :
    NothingLost n xs ↔ Steps callStep Matched (.create n) xs := by
  constructor
  · intro h ys x g g' hys hg hs
    exact matched_of_throwsHarmlessly (h.throws ys x g g' hys hg hs) hs
  · intro h
    constructor
    · exact fun ys x g g' hys hg hs => throwsHarmlessly_of_matched (h ys x g g' hys hg hs)
    · rintro ys ⟨zs, rfl⟩ g hg idx
      have haccounted : Accounted g (record callStep callNote (.create n) ys) := by
        refine (Steps.of_append h).record_invariant (I := Accounted) ?_ hg (accounted_create n)
        exact fun _ _ _ _ => accounted_step
      rw [haccounted idx, List.length_append]

def wrongLength (src dst : Fin n) : List (Fin n × Call) :=
  [(src, .send (dst : ℕ) [7]), (dst, .recv (src : ℕ) 2)]

/-- The message is neither delivered nor in the channel any more. -/
theorem wrongLength_lost :
    (exec callStep (.create 2) (wrongLength (0 : Fin 2) 1)).map (fun g => g.q 1) = some [] ∧
      sentOn 1 (record callStep callNote (.create 2) (wrongLength (0 : Fin 2) 1)) = [[7]] ∧
      receivedOn 1 (record callStep callNote (.create 2) (wrongLength (0 : Fin 2) 1)) = [] ∧
      ¬ NothingLost 2 (wrongLength 0 1) := by
  refine ⟨rfl, rfl, rfl, fun h => ?_⟩
  have hcount := h.conserved (wrongLength 0 1) (List.prefix_refl _) _ rfl 1
  cases hcount

end SystemsPrep.InProc
