import SystemsPrep.Spsc.Contents

/-!
FIFO delivery on an SPSC ring.

At every point of every interleaving the elements handed to the consumer are the
first of those accepted from the producer, and what lies between the two never
exceeds the capacity. The element in the middle of being copied out is not
counted until its last byte has arrived, so no torn element is ever delivered.
-/

namespace SystemsPrep.Spsc

open Base

/-- What has been delivered so far continues what was handed over by the calls
that have returned. -/
theorem Contents.delivered_isPrefix {w : World} (h : Contents w) : w.delivered <+: w.accepted := by
  have hcons := h.consumer
  unfold World.delivered
  split
  · rename_i c tail n ms out hp
    rw [hp] at hcons
    obtain ⟨b, hpend, hout, -⟩ := hcons
    have hlen : n.toNat * w.ring.esize - (moves ms).length = b := by
      have := hpend.le
      rw [hpend.moves_eq, List.length_map, List.length_range']
      omega
    rw [hlen]
    exact h.handed_append_isPrefix (Nat.div_mul_le_self b _) hout
  · rw [List.append_nil]
    exact h.fifo

/-- **FIFO safety.** Whatever the two sides call and however their actions
interleave, the delivered elements are the first accepted ones in order, every
one of them complete, and at most `capacity` published elements are unconsumed. -/
theorem spsc_fifo {alignedAlloc : Bool} {malloc : Size → Option (ℕ → Byte)}
    {capacity elemSize : Size} {r : SpscRing} {as : List Action} {w : World}
    (hr : spscRingCreate alignedAlloc malloc capacity elemSize = some r)
    (hfits : capacity.toNat * elemSize.toNat < 2 ^ 64)
    (hw : exec step (World.start r) as = some w) :
    w.delivered <+: w.accepted ∧ w.handed <+: w.delivered ∧
      (∀ x ∈ w.accepted, x.length = elemSize.toNat) ∧
      (w.ring.head - w.ring.tail).toNat = w.accepted.length - w.handed.length ∧
      w.accepted.length ≤ w.handed.length + capacity.toNat := by
  obtain ⟨ct, ch, hc⟩ := counters_exec hr hw
  have h := contents_exec hr hfits hw
  obtain ⟨hcap, -, hsize, -⟩ := exec_layout hw
  obtain ⟨hcap', hsize'⟩ := spscRingCreate_capacity hr
  refine ⟨h.delivered_isPrefix, List.prefix_append _ _, fun x hx => ?_, hc.toNat_head_sub_tail, ?_⟩
  · rw [h.esize x hx, SpscRing.esize, hsize]
    exact congrArg BitVec.toNat hsize'
  · have hroom := hc.room
    have hct := hc.ct_le
    rw [SpscRing.cap, hcap] at hroom
    change w.accepted.length ≤ ct + r.capacity.toNat at hroom
    rw [hcap'] at hroom
    omega

/-- A producer that offers five one-byte elements to a ring of two, and a
consumer that starts a pop before the batch is published. -/
def batchAndPop : List Action :=
  [.push (.pushN (fun i => BitVec.ofNat 8 i) 5), .producer 0, .producer 0, .producer 0,
    .producer 0, .pop (.pop fun _ => 9), .consumer 0, .producer 0, .producer 0, .producer 0,
    .producer 0, .consumer 0, .consumer 0, .consumer 0, .consumer 0, .consumer 0, .consumer 0]

theorem spsc_fifo_batchAndPop :
    ∃ r w, spscRingCreate true (fun _ => some fun _ => 0) 2 1 = some r ∧
      exec step (World.start r) batchAndPop = some w ∧
      w.delivered = [[0]] ∧ w.accepted = [[0], [1]] ∧ w.delivered <+: w.accepted :=
  ⟨_, _, rfl, rfl, rfl, rfl,
    (@spsc_fifo true (fun _ => some fun _ => 0) 2 1 _ batchAndPop _ rfl (by decide) rfl).1⟩

end SystemsPrep.Spsc
