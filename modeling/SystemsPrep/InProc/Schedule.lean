import SystemsPrep.Base.Diamond
import SystemsPrep.InProc.Transport

/-!
Rank programs on one grid, in any interleaving.

A rank is a deterministic program that only talks through `send` and `recv`. Its
calls are taken apart into the check of the peer, the push onto the queue or the
taking of the front once there is one, and the comparison of the lengths. Steps
of different ranks commute, since a channel has one sender and one receiver.
-/

namespace SystemsPrep.InProc

open Base

/-- The next call of a rank: `send(dst, buf, len)` with the bytes of `buf`, or
`recv(src, buf, len)`. -/
inductive Call
  | send (dst : ℤ) (bytes : List Byte)
  | recv (src : ℤ) (len : ℕ)

/-- How a call ends: a `send` returns, a `recv` has filled the buffer, or an
exception is thrown. -/
inductive Outcome
  | sent
  | received (bytes : List Byte)
  | threw (e : Exception)
  deriving DecidableEq

/-- A deterministic single-threaded program. `call` is its next call, or `none`
when it has finished; `resume` is what it does with the way the call ended. -/
structure RankProgram (σ : Type*) where
  call : σ → Option Call
  resume : σ → Outcome → σ

/-- Where a rank stands: in its own program, or inside a call. Once the peer has
passed the check it is the number of a rank. -/
inductive Stage (n : ℕ) (σ : Type*)
  | program (s : σ)
  | push (s : σ) (dst : Fin n) (bytes : List Byte)
  | take (s : σ) (src : Fin n) (len : ℕ)
  | copyOut (s : σ) (bytes : List Byte) (len : ℕ)

structure Rank (n : ℕ) (σ : Type*) where
  stage : Stage n σ
  outcomes : List Outcome

structure World (n : ℕ) (σ : Fin n → Type*) where
  grid : InProcGrid
  ranks : (r : Fin n) → Rank n (σ r)

variable {n : ℕ} {σ : Fin n → Type*}

def World.start (inputs : (r : Fin n) → σ r) : World n σ where
  grid := .create n
  ranks r := { stage := .program (inputs r), outcomes := [] }

def transport (r : Fin n) : InProcTransport where
  worldSize := n
  myRank := (r : ℕ)

theorem lt_of_not_outOfRange {r : Fin n} {peer : ℤ} (h : ¬ (transport r).OutOfRange peer) :
    peer.toNat < n := by
  simp only [InProcTransport.OutOfRange, transport, not_or] at h
  omega

def World.setRank (w : World n σ) (r : Fin n) (x : Rank n (σ r)) : World n σ :=
  { w with ranks := Function.update w.ranks r x }

def Rank.finish {τ : Type*} (x : Rank n τ) (p : RankProgram τ) (s : τ) (o : Outcome) :
    Rank n τ where
  stage := .program (p.resume s o)
  outcomes := x.outcomes ++ [o]

/-- The next step of a rank apart from its effect on the grid, which it sees
through the queue it receives from. -/
def Rank.enter {r : Fin n} (x : Rank n (σ r)) (p : RankProgram (σ r)) (s : σ r) :
    Call → Rank n (σ r)
  | .send dst bytes =>
      if h : (transport r).OutOfRange dst then x.finish p s (.threw (.outOfRange "send dst"))
      else { x with stage := .push s ⟨dst.toNat, lt_of_not_outOfRange h⟩ bytes }
  | .recv src len =>
      if h : (transport r).OutOfRange src then x.finish p s (.threw (.outOfRange "recv src"))
      else { x with stage := .take s ⟨src.toNat, lt_of_not_outOfRange h⟩ len }

/-- The end of a `recv`, with the front message in hand. -/
def Rank.copyOut {τ : Type*} (x : Rank n τ) (p : RankProgram τ) (s : τ) (bytes : List Byte)
    (len : ℕ) : Rank n τ :=
  if bytes.length ≠ len then x.finish p s (.threw (.runtimeError "recv size mismatch"))
  else x.finish p s (.received bytes)

def step (P : (r : Fin n) → RankProgram (σ r)) (w : World n σ) (r : Fin n) :
    Option (World n σ) :=
  match (w.ranks r).stage with
  | .program s => ((P r).call s).map fun c => w.setRank r ((w.ranks r).enter (P r) s c)
  | .push s dst bytes =>
      some { w.setRank r ((w.ranks r).finish (P r) s .sent) with
        grid := w.grid.push ((transport r).sendIdx (dst : ℕ)) bytes }
  | .take s src len =>
      match w.grid.q ((transport r).recvIdx (src : ℕ)) with
      | [] => none
      | bytes :: _ =>
          some { w.setRank r { w.ranks r with stage := .copyOut s bytes len } with
            grid := w.grid.pop ((transport r).recvIdx (src : ℕ)) }
  | .copyOut s bytes len => some (w.setRank r ((w.ranks r).copyOut (P r) s bytes len))

/-! ### What a step does to the grid -/

inductive Effect
  | stay
  | push (idx : ℕ) (bytes : List Byte)
  | pop (idx : ℕ)

def Effect.apply : Effect → InProcGrid → InProcGrid
  | .stay, g => g
  | .push idx bytes, g => g.push idx bytes
  | .pop idx, g => g.pop idx

/-- A rank pushes only to channels it sends on, and pops only from channels it
receives on that hold something. -/
def Effect.Allowed (r : Fin n) (g : InProcGrid) : Effect → Prop
  | .stay => True
  | .push idx _ => ∃ dst : Fin n, idx = r * n + dst
  | .pop idx => (∃ src : Fin n, idx = src * n + r) ∧ g.q idx ≠ []

/-- The part of the grid that a step with this effect looks at. -/
def Effect.SameView (g g' : InProcGrid) : Effect → Prop
  | .pop idx => (g'.q idx).head? = (g.q idx).head?
  | _ => True

theorem sendIdx_transport (hn : n * n < 2 ^ 31) (r dst : Fin n) :
    (transport r).sendIdx (dst : ℕ) = r * n + dst :=
  int32_idx hn r.isLt dst.isLt

theorem recvIdx_transport (hn : n * n < 2 ^ 31) (r src : Fin n) :
    (transport r).recvIdx (src : ℕ) = src * n + r :=
  int32_idx hn src.isLt r.isLt

/-- A step of rank `r` depends on that rank and on what it sees of the grid, and
changes nothing else. -/
theorem step_cases {P : (r : Fin n) → RankProgram (σ r)} {w w' : World n σ} {r : Fin n}
    (hn : n * n < 2 ^ 31) (h : step P w r = some w') :
    ∃ (x : Rank n (σ r)) (e : Effect),
      w' = { grid := e.apply w.grid, ranks := Function.update w.ranks r x } ∧
      e.Allowed r w.grid ∧
      ∀ v : World n σ, v.ranks r = w.ranks r → e.SameView w.grid v.grid →
        step P v r = some { grid := e.apply v.grid, ranks := Function.update v.ranks r x } := by
  unfold step at h
  split at h
  · rename_i s hstage
    obtain ⟨c, hc, rfl⟩ := Option.map_eq_some_iff.mp h
    refine ⟨_, .stay, rfl, trivial, fun v hv _ => ?_⟩
    simp only [step, hv, hstage, hc, Option.map_some]
    rfl
  · rename_i s dst bytes hstage
    cases h
    refine ⟨_, .push ((transport r).sendIdx (dst : ℕ)) bytes, rfl,
      ⟨dst, sendIdx_transport hn r dst⟩, fun v hv _ => ?_⟩
    simp only [step, hv, hstage]
    rfl
  · rename_i s src len hstage
    split at h
    · cases h
    · rename_i bytes rest hq
      cases h
      refine ⟨_, .pop ((transport r).recvIdx (src : ℕ)), rfl,
        ⟨⟨src, recvIdx_transport hn r src⟩, by rw [hq]; exact List.cons_ne_nil _ _⟩,
        fun v hv hview => ?_⟩
      -- the other grid has the same front message
      rw [Effect.SameView, hq, List.head?_cons, List.head?_eq_some_iff] at hview
      obtain ⟨rest', hq'⟩ := hview
      simp only [step, hv, hstage, hq']
      rfl
  · rename_i s bytes len hstage
    cases h
    refine ⟨_, .stay, rfl, trivial, fun v hv _ => ?_⟩
    simp only [step, hv, hstage]
    rfl

/-! ### Effects of different ranks commute -/

section Commute

variable {a b : Fin n} {ea eb : Effect} {g : InProcGrid}

/-- Two ranks never send on one channel, nor receive on one. -/
theorem channel_ne_of_sender (hab : a ≠ b) (dst dst' : Fin n) :
    (a : ℕ) * n + dst ≠ b * n + dst' :=
  fun h => hab (Fin.ext (idx_inj dst.isLt dst'.isLt h).1)

theorem channel_ne_of_receiver (hab : a ≠ b) (src src' : Fin n) :
    (src : ℕ) * n + a ≠ src' * n + b :=
  fun h => hab (Fin.ext (idx_inj a.isLt b.isLt h).2)

/-- A step of one rank leaves what another sees as it is. -/
theorem sameView_apply (hab : a ≠ b) (ha : ea.Allowed a g) (hb : eb.Allowed b g) :
    eb.SameView g (ea.apply g) := by
  cases eb with
  | stay => trivial
  | push => trivial
  | pop j =>
      obtain ⟨⟨src, rfl⟩, hne⟩ := hb
      cases ea with
      | stay => rfl
      | push i bytes =>
          by_cases hij : (src : ℕ) * n + b = i
          · subst hij
            change ((g.push _ bytes).q _).head? = _
            rw [InProcGrid.push_q_self, List.head?_append_of_ne_nil _ hne]
          · exact congrArg List.head? (g.push_q_of_ne bytes hij)
      | pop i =>
          obtain ⟨⟨src', rfl⟩, -⟩ := ha
          exact congrArg List.head? (g.pop_q_of_ne (channel_ne_of_receiver hab.symm src src'))

theorem push_pop_commute {i j : ℕ} {bytes : List Byte} (hne : g.q j ≠ []) :
    (g.push i bytes).pop j = (g.pop j).push i bytes := by
  by_cases hij : i = j
  · subst hij
    exact g.push_pop_comm bytes hne
  · exact g.push_pop_comm_of_ne bytes hij

theorem apply_comm (hab : a ≠ b) (ha : ea.Allowed a g) (hb : eb.Allowed b g) :
    eb.apply (ea.apply g) = ea.apply (eb.apply g) := by
  cases ea with
  | stay => rfl
  | push i bytes =>
      obtain ⟨dst, rfl⟩ := ha
      cases eb with
      | stay => rfl
      | push j bytes' =>
          obtain ⟨dst', rfl⟩ := hb
          exact g.push_push_comm bytes bytes' (channel_ne_of_sender hab dst dst')
      | pop j => exact push_pop_commute hb.2
  | pop i =>
      cases eb with
      | stay => rfl
      | push j bytes => exact (push_pop_commute ha.2).symm
      | pop j =>
          obtain ⟨⟨src, rfl⟩, -⟩ := ha
          obtain ⟨⟨src', rfl⟩, -⟩ := hb
          exact g.pop_pop_comm (channel_ne_of_receiver hab src src')

end Commute

/-- Steps of different ranks can be taken in either order. -/
theorem diamond_step (P : (r : Fin n) → RankProgram (σ r)) (hn : n * n < 2 ^ 31) :
    Diamond (step P) := by
  intro w a b wa wb hab ha hb
  obtain ⟨xa, ea, rfl, hallowa, hframea⟩ := step_cases hn ha
  obtain ⟨xb, eb, rfl, hallowb, hframeb⟩ := step_cases hn hb
  refine ⟨{ grid := eb.apply (ea.apply w.grid)
            ranks := Function.update (Function.update w.ranks a xa) b xb }, ?_, ?_⟩
  · exact hframeb _ (Function.update_of_ne hab.symm ..) (sameView_apply hab hallowa hallowb)
  · rw [apply_comm hab hallowa hallowb, Function.update_comm hab]
    exact hframea _ (Function.update_of_ne hab ..) (sameView_apply hab.symm hallowb hallowa)

/-- **Schedule independence.** Take any deterministic rank programs on one grid
whose indices fit an `int`. Two interleavings that run until no rank can move end
in the same world: the same local states, the same received messages and thrown
exceptions at every rank, the same messages left in every channel. Every rank has
taken the same number of steps, and no interleaving runs longer. -/
theorem inproc_schedule_independent (P : (r : Fin n) → RankProgram (σ r))
    (hn : n * n < 2 ^ 31) (inputs : (r : Fin n) → σ r) {as bs : List (Fin n)} {u v : World n σ}
    (hu : exec (step P) (World.start inputs) as = some u) (hustuck : ∀ r, step P u r = none)
    (hv : exec (step P) (World.start inputs) bs = some v) (hvstuck : ∀ r, step P v r = none) :
    (∀ r, u.ranks r = v.ranks r) ∧ (∀ idx, u.grid.q idx = v.grid.q idx) ∧
      (∀ r, as.count r = bs.count r) ∧
      ∀ cs w, exec (step P) (World.start inputs) cs = some w → cs.length ≤ as.length := by
  have hd := diamond_step P hn
  obtain ⟨rfl, hperm⟩ := hd.unique_end hu hustuck hv hvstuck
  exact ⟨fun _ => rfl, fun _ => rfl, fun r => hperm.count_eq r,
    fun cs w hw => hd.length_le hu hustuck hw⟩

def script : RankProgram (List Call) where
  call := List.head?
  resume
    | _, .threw _ => []
    | cs, _ => cs.tail

/-- Rank 0 sends one byte and then waits for rank 1, which asked for two bytes
and has thrown. -/
def mismatch : (r : Fin 2) → List Call
  | 0 => [.send 1 [7], .recv 1 1]
  | 1 => [.recv 0 2, .send 0 [8]]

theorem inproc_schedule_independent_mismatch :
    ∃ u v : World 2 fun _ => List Call,
      exec (step fun _ => script) (World.start mismatch) [0, 0, 0, 1, 1, 1] = some u ∧
      exec (step fun _ => script) (World.start mismatch) [1, 0, 0, 1, 1, 0] = some v ∧
      (v.ranks 1).outcomes = [.threw (.runtimeError "recv size mismatch")] ∧
      (∀ r, u.ranks r = v.ranks r) := by
  have hu : exec (step fun _ => script) (World.start mismatch) [0, 0, 0, 1, 1, 1] = some _ := rfl
  have hv : exec (step fun _ => script) (World.start mismatch) [1, 0, 0, 1, 1, 0] = some _ := rfl
  refine ⟨_, _, hu, hv, rfl, ?_⟩
  refine (inproc_schedule_independent (fun _ => script) (by norm_num) mismatch hu ?_ hv ?_).1
  · intro r
    match r with
    | 0 => rfl
    | 1 => rfl
  · intro r
    match r with
    | 0 => rfl
    | 1 => rfl

end SystemsPrep.InProc
